import KivaDb.Shell.Ttl

namespace KivaDb.Exec

open Lib.LittleEndian Lib.Utf8 Lib.Fallible Lib.Program Lib.Program.Prog Lib.Saturating Front Lexer
open Resp (Asked Dated Timed When Exact readings deadlineIn LeftExact)

section

variable [External] [Chrono] [Codec] [Vectors]

section

variable {P : Asked → Resp.Op → Prop} {h : Asked}

omit [Codec] in
theorem meets_cmdAsk {op : Resp.Op} {Q : Asked → op.Ans → Prop} :
    Meets P Q h (ask op) ↔ P h op ∧ ∀ a, Q (h ++ [⟨op, .ok a⟩]) a := by
  constructor
  · exact fun hm => ⟨hm.1, fun a => hm.2 (.ok a)⟩
  · refine fun hm => ⟨hm.1, fun r => ?_⟩
    cases r with
    | ok a => exact hm.2 a
    | error e => trivial

omit [Codec] in
theorem meets_now {Q : Asked → Int64 → Prop} :
    Meets P Q h (ask .now) ↔ P h .now ∧ ∀ now, Q (h ++ [⟨.now, .ok now⟩]) now := meets_cmdAsk

omit [Codec] in
theorem meets_kvGet {k : String} {Q : Asked → Option (Value × Meta) → Prop} :
    Meets P Q h (kvGet k) ↔ P h (.kvGet k) ∧ ∀ r, Q (h ++ [⟨.kvGet k, .ok r⟩]) r := meets_cmdAsk

omit [Codec] in
theorem meets_kvPut {k : String} {v : Value} {e : Int64} {msgpack : Bool} {Q : Asked → Unit → Prop} :
    Meets P Q h (kvPut k v e msgpack) ↔ P h (.apply [.put k v e msgpack]) ∧
      ∀ u, Q (h ++ [⟨.apply [.put k v e msgpack], .ok u⟩]) u := meets_cmdAsk

omit [Codec] in
theorem meets_kvExists (hP : ∀ h op, (∀ ops, op ≠ .apply ops) → P h op) (k : String) :
    Meets P (fun h' _ => h <+: h') h (kvExists k) := by
  unfold kvExists
  rw [meets_bind]
  exact meets_cmdAsk.mpr ⟨hP _ _ fun ops => nofun, fun ty => List.prefix_append h _⟩

end

variable {h : Asked} {request : Option (String × Int64)}

omit [Codec] in
/-- `ttl` asks for what `EX` asks for. -/
theorem meets_deadlineFromNow (secs : Int64) :
    Meets (Dated request) (fun h e => 0 < secs.toInt → Timed h "EX" secs e) h (deadlineFromNow secs) := by
  unfold deadlineFromNow
  split
  · next hsecs =>
      have hpos : 0 < secs.toInt := Int64.lt_iff_toInt_lt.mp hsecs
      rw [meets_bind, meets_now]
      refine ⟨Resp.dated_of_ne (fun ops => nofun), fun now _ => ?_⟩
      have hnow := Resp.readings_now h now
      refine .of_when (.secs (by decide) hnow) fun hclock => ?_
      have hzero := hclock now hnow
      rw [deadlineIn, if_pos hsecs]
      exact ⟨Resp.exact_saturatingAdd hzero (Resp.exact_saturatingMul hpos) (by omega), by omega⟩
  · next hsecs => exact fun hpos => absurd (Int64.lt_iff_toInt_lt.mpr (by rwa [Int64.toInt_zero])) hsecs

omit [Codec] in
theorem meets_newKey (pre : String) (ids : List (Result String)) :
    Meets (Dated request) (fun _ _ => True) h (newKey pre ids) := by
  induction ids generalizing h with
  | nil => exact meets_fail _
  | cons id ids ih =>
      cases id with
      | error e => exact meets_fail _
      | ok id =>
          rw [newKey]
          rw [meets_bind, meets_ofExcept]
          intro _ _
          rw [meets_bind]
          refine (meets_kvExists (fun _ _ hop => Resp.dated_of_ne hop) _).mono fun h' found _ _ => ?_
          split
          · exact ih
          · trivial

variable [Literals]

/-- What a `set` asks for. -/
def setRequest (a : List Token) : Option (String × Int64) := (parseSet a).toOption.map fun p => ("EX", p.ttl)

def addRequest (a : List Token) : Option (String × Int64) := (parseAdd a).toOption.map fun p => ("EX", p.ttl)

omit [Codec] in
theorem meets_setOne (a : List Token) : Meets (Dated (setRequest a)) (fun _ _ => True) h (setOne a) := by
  unfold setOne setRequest
  rw [meets_bind, meets_ofExcept]
  intro p hp
  rw [hp, meets_bind]
  refine (meets_kvExists (fun _ _ hop => Resp.dated_of_ne hop) _).mono fun h' found _ _ => ?_
  split
  · split
    · trivial
    · exact meets_fail _
  · rw [meets_bind]
    refine (meets_deadlineFromNow p.ttl).mono fun h'' e _ he => ?_
    rw [meets_bind, meets_kvPut]
    refine ⟨Resp.dated_put fun option n hreq hpos => ?_, fun _ => trivial⟩
    obtain ⟨rfl, rfl⟩ := Prod.mk.inj (Option.some.inj hreq)
    exact he hpos

omit [Codec] in
theorem meets_cmdAdd (ids : List (Result String)) (a : List Token) :
    Meets (Dated (addRequest a)) (fun _ _ => True) h (cmdAdd ids a) := by
  unfold cmdAdd addRequest
  rw [meets_bind, meets_ofExcept]
  intro p hp
  rw [hp, meets_bind]
  refine (meets_newKey p.pre (ids.take 8)).mono fun h' key _ _ => ?_
  rw [meets_bind, meets_ofExcept]
  intro value _
  rw [meets_bind]
  refine (meets_deadlineFromNow p.ttl).mono fun h'' e _ he => ?_
  rw [meets_bind, meets_kvPut]
  refine ⟨Resp.dated_put fun option n hreq hpos => ?_, fun _ => trivial⟩
  obtain ⟨rfl, rfl⟩ := Prod.mk.inj (Option.some.inj hreq)
  exact he hpos

/-- What is stored is the deadline asked for exactly where the sum fits in 64 bits. -/
def Bumped (a : List Token) (h : Asked) (op : Resp.Op) : Prop :=
  ∀ ops, op = .apply ops → ∀ k v e msgpack, BatchOp.put k v e msgpack ∈ ops →
    ∃ p v m, ∃ now ∈ readings h, parseBump a = .ok p ∧ ⟨.kvGet p.key, .ok (some (v, m))⟩ ∈ h ∧
      (0 ≤ now.toInt → (Exact ((p.base m.expiresAt now).toInt + 1000 * p.secs.toInt) e ↔
        (p.base m.expiresAt now).toInt + min (1000 * p.secs.toInt) (2 ^ 63 - 1) < 2 ^ 63))

omit [External] [Chrono] [Codec] [Vectors] [Literals] in
theorem bumpSecs_pos {n : Token} {secs : Int64} (h : bumpSecs n = .ok secs) : 0 < secs.toInt := by
  unfold bumpSecs at h
  split at h
  · next s hs =>
      obtain rfl := Except.ok.inj h
      obtain ⟨-, hfilter⟩ := Option.filter_eq_some_iff.mp hs
      simp only [Bool.and_eq_true, decide_eq_true_eq] at hfilter
      exact Int64.lt_iff_toInt_lt.mp hfilter.1
  · exact nomatch h

omit [External] [Chrono] [Codec] [Vectors] [Literals] in
theorem parseBump_pos {a : List Token} {p : BumpPlan} (h : parseBump a = .ok p) : 0 < p.secs.toInt := by
  obtain ⟨⟨want, k, op, n⟩, -, h⟩ := except_bind_ok.mp h
  obtain ⟨key, -, h⟩ := except_bind_ok.mp h
  obtain ⟨add, -, h⟩ := except_bind_ok.mp h
  obtain ⟨secs, hsecs, h⟩ := except_bind_ok.mp h
  obtain rfl := Except.ok.inj h
  exact bumpSecs_pos hsecs

omit [External] [Chrono] [Codec] [Vectors] [Literals] in
theorem BumpPlan.base_nonneg (p : BumpPlan) {current now : Int64} (hnow : 0 ≤ now.toInt) :
    0 ≤ (p.base current now).toInt := by
  unfold base
  split
  · next h => exact hnow.trans (Int.le_of_lt (Int64.lt_iff_toInt_lt.mp h.2))
  · exact hnow

omit [Codec] [Literals] in
theorem bumped_of_ne {a : List Token} {op : Resp.Op} (hop : ∀ ops, op ≠ .apply ops) : Bumped a h op :=
  fun ops heq => absurd heq (hop ops)

omit [Codec] [Literals] in
theorem meets_cmdBump (a : List Token) : Meets (Bumped a) (fun _ _ => True) h (cmdBump a) := by
  unfold cmdBump
  rw [meets_bind, meets_ofExcept]
  intro p hp
  rw [meets_bind, meets_kvGet]
  refine ⟨bumped_of_ne fun ops => nofun, fun found => ?_⟩
  cases found with
  | none => exact meets_fail _
  | some found =>
      obtain ⟨v, m⟩ := found
      dsimp only
      split
      · exact meets_fail _
      · rw [meets_bind, meets_now]
        refine ⟨bumped_of_ne fun ops => nofun, fun now => ?_⟩
        rw [meets_bind, meets_kvPut]
        refine ⟨fun ops hops k v' e msgpack hmem => ?_, fun _ => trivial⟩
        obtain rfl := Resp.Op.apply.inj hops
        obtain ⟨-, -, rfl, -⟩ := BatchOp.put.inj (List.mem_singleton.mp hmem)
        refine ⟨p, v, m, now, Resp.readings_now _ now, hp, ?_, fun hnow => ?_⟩
        · exact List.mem_append_left _ (List.mem_append_right _ (List.mem_singleton.mpr rfl))
        · have hms := Resp.exact_saturatingMul (parseBump_pos hp)
          rw [Resp.exact_add_iff (p.base_nonneg hnow) hms (by have := parseBump_pos hp; omega)]
          rw [hms]

/-- In every run of every connection, all that the program asks for meets `P`. -/
def Stores {ε α : Type} (P : Asked → Resp.Op → Prop) (p : Prog Resp.Op (fun op => Except KivaError op.Ans) ε α) : Prop :=
  ∀ (c : Resp.Conn) before x after, exchanges Resp.answer p c = before ++ x :: after → P before x.1

omit [Literals] in
theorem stores_of_meets {ε α : Type} {P : Asked → Resp.Op → Prop}
    {p : Prog Resp.Op (fun op => Except KivaError op.Ans) ε α} (hp : Meets P (fun _ _ => True) [] p) : Stores P p := by
  intro c before x after hx
  exact hp.asked hx

/-- Whatever the program returns in a run of a connection meets `Q`, given the answers it had. -/
def Answers {ε α : Type} (Q : Asked → α → Prop) (p : Prog Resp.Op (fun op => Except KivaError op.Ans) ε α) : Prop :=
  ∀ (c : Resp.Conn) a, (run Resp.answer p c).1 = .ok a → Q (exchanges Resp.answer p c) a

/-- The commands of the Redis protocol that store a deadline. -/
def expiryCommand (name : String) (args : List Bytes) : Resp.Cmd Resp.Reply :=
  if name = "SET" then Resp.set args
  else if name = "SETEX" ∨ name = "PSETEX" then Resp.setex name args
  else if name ∈ ["EXPIRE", "PEXPIRE", "EXPIREAT", "PEXPIREAT"] then Resp.expire name args
  else Resp.getex args

/-- The option and the number that such a command asks with. -/
def expiryRequest (name : String) (args : List Bytes) : Option (String × Int64) :=
  if name = "SET" then Resp.expiryAsked (args.drop 3)
  else if name = "SETEX" ∨ name = "PSETEX" then (Resp.int (args.getD 2 [])).toOption.map fun n => (name, n)
  else if name ∈ ["EXPIRE", "PEXPIRE", "EXPIREAT", "PEXPIREAT"] then
    (Resp.int (args.getD 2 [])).toOption.map fun n => (name, n)
  else (Resp.int (args.getD 3 [])).toOption.map fun n => (Resp.upper (args.getD 2 []), n)

omit [Literals] in
theorem expiryCommand_dated (name : String) (args : List Bytes) :
    Stores (Dated (expiryRequest name args)) (expiryCommand name args) := by
  unfold expiryCommand expiryRequest
  split
  · exact stores_of_meets (Resp.meets_set args)
  · split
    · exact stores_of_meets (Resp.meets_setex name args)
    · split
      · exact stores_of_meets (Resp.meets_expire name args)
      · exact stores_of_meets (Resp.meets_getex args)

/-- Every deadline that `SET`, `SETEX`, `GETEX`, `EXPIRE`, `set ttl` and `add ttl` store is the
exact one; those of `bump` are where the sum fits in 64 bits; and the time left is computed
without overflow where its sums fit. -/
theorem deadlines_exact :
    (∀ name args, Stores (Dated (expiryRequest name args)) (expiryCommand name args)) ∧
      (∀ a, Stores (Dated (setRequest a)) (setOne a)) ∧
      (∀ ids a, Stores (Dated (addRequest a)) (cmdAdd ids a)) ∧
      (∀ a, Stores (Bumped a) (cmdBump a)) ∧
      (∀ name args, Answers (Resp.TtlReply name) (Resp.ttl name args)) ∧
      (∀ exp now, (LeftExact 999 exp now ↔
        -2 ^ 63 ≤ exp.toInt - now.toInt ∧ max (exp.toInt - now.toInt) 0 + 999 < 2 ^ 63) ∧
        (LeftExact 999 exp now →
          (Resp.secsLeft exp now).toInt = (max (exp.toInt - now.toInt) 0 + 999) / 1000)) ∧
      ∀ name exp now, (LeftExact (if name = "TTL" then 500 else 0) exp now ↔
        -2 ^ 63 ≤ exp.toInt - now.toInt ∧
          max (exp.toInt - now.toInt) 0 + (if name = "TTL" then 500 else 0) < 2 ^ 63) ∧
        (LeftExact (if name = "TTL" then 500 else 0) exp now → (Resp.timeLeft name exp now).toInt =
          if name = "TTL" then (max (exp.toInt - now.toInt) 0 + 500) / 1000 else max (exp.toInt - now.toInt) 0) := by
  refine ⟨expiryCommand_dated, fun a => stores_of_meets (meets_setOne a), fun ids a => stores_of_meets (meets_cmdAdd ids a),
    fun a => stores_of_meets (meets_cmdBump a), fun name args c r hr => (Resp.meets_ttl name args (h := [])).returned hr,
    fun exp now => ⟨Resp.leftExact_iff (by decide), Resp.secsLeft_exact⟩, fun name exp now => ⟨?_, Resp.timeLeft_exact⟩⟩
  split
  · exact Resp.leftExact_iff (by decide)
  · exact Resp.leftExact_iff (by decide)

end

section Samples

open Reference

local instance shellCodec : Codec := codec []

local instance shellLiterals : Literals where
  timeExpr := fun _ => none
  parseValue := fun t _ _ => .ok (.str t.text)

def word (s : String) : Token := ⟨s, .bare, 0, 0⟩

/-- `k` has a deadline, 9 seconds after 1970; the clock is at 5 milliseconds. -/
def short : Resp.Conn := ((Resp.Conn.perform (connection server [] 5)) (Resp.Cmd.put "k" (.str "v") 9000)).2

def bumpMost : List Token := [word "k", word "add", word "9223372036854775807"]

def deadlines (h : Asked) : List Int64 :=
  h.filterMap fun
    | ⟨.apply [.put _ _ e _], _⟩ => some e
    | _ => none

/-- The longest extension there is makes the deadline negative. -/
theorem bump_wraps : ¬ Stores (fun _ op => ∀ k v e msgpack, op = .apply [.put k v e msgpack] → 0 < e.toInt) (cmdBump bumpMost) := by
  intro hstores
  have hwraps : deadlines (exchanges Resp.answer (cmdBump bumpMost) short) = [-9223372036854766809] := by decide +kernel
  have hmem : (-9223372036854766809 : Int64) ∈ deadlines (exchanges Resp.answer (cmdBump bumpMost) short) := by
    rw [hwraps]
    exact List.mem_singleton.mpr rfl
  obtain ⟨x, hx, he⟩ := List.mem_filterMap.mp hmem
  obtain ⟨before, after, hsplit⟩ := List.append_of_mem hx
  split at he
  · next k v e msgpack a =>
      have hpos := hstores short before _ after hsplit k v e msgpack rfl
      rw [Option.some.inj he] at hpos
      exact absurd hpos (by decide)
  · exact nomatch he

end Samples

end KivaDb.Exec
