import KivaDb.Resp.Expiry

namespace KivaDb.Resp

open Lib.LittleEndian Lib.Utf8 Lib.Program Lib.Program.Prog Lib.Saturating Front

section

variable [External] [Chrono] [Codec] [Vectors]

/-- What a command asked for so far, with the answers. -/
abbrev Asked := History Op fun op => Except KivaError op.Ans

/-- What the clock showed so far. -/
def readings (h : Asked) : List Int64 :=
  h.filterMap fun
    | ⟨.now, .ok t⟩ => some t
    | _ => none

/-- When an expiry option asks for: `n` from now, or from 1970. -/
inductive When (h : Asked) (n : Int) : String → Int → Prop
  | secs {option : String} {now : Int64} (hopt : option ∈ ["EX", "EXPIRE", "SETEX"]) (hnow : now ∈ readings h) :
      When h n option (now.toInt + 1000 * n)
  | millis {option : String} {now : Int64} (hopt : option ∈ ["PX", "PEXPIRE", "PSETEX"]) (hnow : now ∈ readings h) :
      When h n option (now.toInt + n)
  | atSecs {option : String} (hopt : option ∈ ["EXAT", "EXPIREAT"]) : When h n option (1000 * n)
  | atMillis {option : String} (hopt : option ∈ ["PXAT", "PEXPIREAT"]) : When h n option n

/-- `e` is the deadline that `option` asks for with `n`: never zero, never negative, and never
earlier, but that it is the last one there is. -/
def Timed (h : Asked) (option : String) (n e : Int64) : Prop :=
  (∀ now ∈ readings h, 0 ≤ now.toInt) → ∃ when, When h n.toInt option when ∧ Exact when e ∧ 0 < e.toInt

/-- Every deadline that is stored is the one asked for. -/
def Dated (request : Option (String × Int64)) (h : Asked) (op : Op) : Prop :=
  ∀ ops, op = .apply ops → ∀ k v e msgpack, BatchOp.put k v e msgpack ∈ ops →
    ∀ option n, request = some (option, n) → 0 < n.toInt → Timed h option n e

/-- The last expiry option among those of `SET`. -/
def expiryAsked : List Bytes → Option (String × Int64)
  | [] => none
  | opt :: rest =>
      if upper opt ∈ ["EX", "PX", "EXAT", "PXAT"] then
        match rest with
        | [] => none
        | arg :: rest => (expiryAsked rest).or ((int arg).toOption.map fun n => (upper opt, n))
      else expiryAsked rest

omit [Codec] in
theorem readings_mono {h h' : Asked} (hpre : h <+: h') {now : Int64} (hnow : now ∈ readings h) : now ∈ readings h' := by
  obtain ⟨t, rfl⟩ := hpre
  rw [readings, List.filterMap_append]
  exact List.mem_append_left _ hnow

omit [Codec] in
theorem readings_now (h : Asked) (now : Int64) : now ∈ readings (h ++ [⟨.now, .ok now⟩]) := by
  rw [readings, List.filterMap_append]
  exact List.mem_append_right _ (List.mem_singleton.mpr rfl)

omit [Codec] in
theorem Timed.mono {h h' : Asked} (hpre : h <+: h') {option : String} {n e : Int64} (ht : Timed h option n e) :
    Timed h' option n e := by
  intro hclock
  obtain ⟨when, hwhen, hexact⟩ := ht fun now hnow => hclock now (readings_mono hpre hnow)
  refine ⟨when, ?_, hexact⟩
  cases hwhen with
  | secs hopt hnow => exact .secs hopt (readings_mono hpre hnow)
  | millis hopt hnow => exact .millis hopt (readings_mono hpre hnow)
  | atSecs hopt => exact .atSecs hopt
  | atMillis hopt => exact .atMillis hopt

section

variable {P : Asked → Op → Prop} {h : Asked}

omit [Codec] in
theorem meets_cmdAsk {op : Op} {Q : Asked → op.Ans → Prop} :
    Meets P Q h (Cmd.ask op) ↔ P h op ∧ ∀ a, Q (h ++ [⟨op, .ok a⟩]) a := by
  constructor
  · exact fun hm => ⟨hm.1, fun a => hm.2 (.ok a)⟩
  · refine fun hm => ⟨hm.1, fun r => ?_⟩
    cases r with
    | ok a => exact hm.2 a
    | error e => trivial

omit [Codec] in
theorem meets_now {Q : Asked → Int64 → Prop} :
    Meets P Q h (Cmd.ask .now) ↔ P h .now ∧ ∀ now, Q (h ++ [⟨.now, .ok now⟩]) now := meets_cmdAsk

omit [Codec] in
theorem meets_get {k : String} {Q : Asked → Option (Value × Meta) → Prop} :
    Meets P Q h (Cmd.get k) ↔ P h (.kvGet k) ∧ ∀ r, Q (h ++ [⟨.kvGet k, .ok r⟩]) r := meets_cmdAsk

omit [Codec] in
theorem meets_apply {ops : List BatchOp} {Q : Asked → Unit → Prop} :
    Meets P Q h (Cmd.ask (.apply ops)) ↔ P h (.apply ops) ∧ ∀ u, Q (h ++ [⟨.apply ops, .ok u⟩]) u := meets_cmdAsk

omit [Codec] in
theorem meets_putAs {k : String} {v : Value} {e : Int64} {msgpack : Bool} {Q : Asked → Unit → Prop} :
    Meets P Q h (putAs k v e msgpack) ↔ P h (.apply [.put k v e msgpack]) ∧
      ∀ u, Q (h ++ [⟨.apply [.put k v e msgpack], .ok u⟩]) u := meets_cmdAsk

omit [Codec] in
theorem meets_put {k : String} {v : Value} {e : Int64} {Q : Asked → Unit → Prop} :
    Meets P Q h (Cmd.put k v e) ↔ P h (.apply [.put k v e false]) ∧
      ∀ u, Q (h ++ [⟨.apply [.put k v e false], .ok u⟩]) u := meets_cmdAsk

end

variable {request : Option (String × Int64)} {h : Asked}

omit [Codec] in
theorem dated_of_ne {op : Op} (hop : ∀ ops, op ≠ .apply ops) : Dated request h op :=
  fun ops heq => absurd heq (hop ops)

omit [Codec] in
theorem dated_put {k : String} {v : Value} {e : Int64} {msgpack : Bool}
    (ht : ∀ option n, request = some (option, n) → 0 < n.toInt → Timed h option n e) :
    Dated request h (.apply [.put k v e msgpack]) := by
  rintro ops heq k' v' e' msgpack' hmem option n hreq hpos
  obtain rfl := Op.apply.inj heq
  rw [List.mem_singleton] at hmem
  obtain ⟨-, -, rfl, -⟩ := BatchOp.put.inj hmem
  exact ht option n hreq hpos

omit [Codec] in
theorem Timed.of_when {option : String} {n e : Int64} {when : Int} (hwhen : When h n.toInt option when)
    (hexact : (∀ now ∈ readings h, 0 ≤ now.toInt) → Exact when e ∧ 0 < when) : Timed h option n e := by
  intro hclock
  obtain ⟨hexact, hpos⟩ := hexact hclock
  have he := hexact
  unfold Exact at he
  exact ⟨when, hwhen, hexact, by omega⟩

omit [Codec] in
/-- The deadline of an option is the one it asks for. -/
theorem meets_deadline {option : String} {n : Int64} (hpos : 0 < n.toInt) :
    Meets (Dated request) (fun h r => (∀ e, r = some e → Timed h option n e) ∧
      (option ∈ ["EX", "PX", "EXAT", "PXAT"] → ∃ e, r = some e)) h (deadline option n) := by
  unfold deadline
  split
  · next hopt =>
      rw [meets_bind, meets_now]
      refine ⟨dated_of_ne (fun ops => nofun), fun now => ⟨fun e he => ?_, fun _ => ⟨_, rfl⟩⟩⟩
      obtain rfl := Option.some.inj he
      have hnow := readings_now h now
      refine .of_when (.secs hopt hnow) fun hclock => ?_
      have hzero := hclock now hnow
      exact ⟨exact_saturatingAdd hzero (exact_saturatingMul hpos) (by omega), by omega⟩
  · split
    · next hopt =>
        rw [meets_bind, meets_now]
        refine ⟨dated_of_ne (fun ops => nofun), fun now => ⟨fun e he => ?_, fun _ => ⟨_, rfl⟩⟩⟩
        obtain rfl := Option.some.inj he
        have hnow := readings_now h now
        refine .of_when (.millis hopt hnow) fun hclock => ?_
        have hzero := hclock now hnow
        exact ⟨exact_saturatingAdd hzero (exact_self n) hpos, by omega⟩
    · split
      · next hopt =>
          refine ⟨fun e he => ?_, fun _ => ⟨_, rfl⟩⟩
          obtain rfl := Option.some.inj he
          exact .of_when (.atSecs hopt) fun _ => ⟨exact_saturatingMul hpos, by omega⟩
      · split
        · next hopt =>
            refine ⟨fun e he => ?_, fun _ => ⟨_, rfl⟩⟩
            obtain rfl := Option.some.inj he
            exact .of_when (.atMillis hopt) fun _ => ⟨exact_self n, hpos⟩
        · refine ⟨fun e he => (nomatch he), fun hopt => ?_⟩
          simp_all

/-- What the options of `SET` say about the deadline. -/
def SetOptions.Follows (l : List Bytes) (before : Option Int64) (h : Asked) (o : SetOptions) : Prop :=
  match expiryAsked l with
  | some (option, n) => ∃ e, o.exp = some e ∧ Timed h option n e
  | none => o.exp = before

omit [External] [Chrono] [Codec] [Vectors] in
theorem toInt_pos_of_not_le {n : Int64} (h : ¬ n ≤ 0) : 0 < n.toInt :=
  Int.not_le.mp fun hle => h (Int64.le_iff_toInt_le.mpr hle)

omit [External] [Chrono] [Codec] [Vectors] in
theorem expiryAsked_cons {opt : Bytes} (hopt : upper opt ∉ ["EX", "PX", "EXAT", "PXAT"]) (rest : List Bytes) :
    expiryAsked (opt :: rest) = expiryAsked rest := by
  rw [expiryAsked.eq_def]
  exact if_neg hopt

omit [Codec] in
theorem SetOptions.follows_cons {opt : Bytes} (hopt : upper opt ∉ ["EX", "PX", "EXAT", "PXAT"]) {rest : List Bytes}
    {before : Option Int64} {o : SetOptions} : Follows (opt :: rest) before h o = Follows rest before h o := by
  rw [Follows, Follows, expiryAsked_cons hopt]

omit [Codec] in
theorem meets_setOptions (l : List Bytes) (o : SetOptions) :
    Meets (Dated request) (SetOptions.Follows l o.exp) h (setOptions l o) := by
  induction l, o using setOptions.induct generalizing h with
  | case1 o => exact rfl
  | case2 opt rest o hnx ih =>
      rw [setOptions.eq_def]
      dsimp only
      rw [if_pos hnx]
      refine ih.mono fun h' o' _ hfollows => ?_
      rwa [SetOptions.follows_cons (by rw [hnx]; decide)]
  | case3 opt rest o hnx hxx ih =>
      rw [setOptions.eq_def]
      dsimp only
      rw [if_neg hnx, if_pos hxx]
      refine ih.mono fun h' o' _ hfollows => ?_
      rwa [SetOptions.follows_cons (by rw [hxx]; decide)]
  | case4 opt rest o hnx hxx hkeep ih =>
      rw [setOptions.eq_def]
      dsimp only
      rw [if_neg hnx, if_neg hxx, if_pos hkeep]
      refine ih.mono fun h' o' _ hfollows => ?_
      rwa [SetOptions.follows_cons (by rw [hkeep]; decide)]
  | case5 opt rest o hnx hxx hkeep hget ih =>
      rw [setOptions.eq_def]
      dsimp only
      rw [if_neg hnx, if_neg hxx, if_neg hkeep, if_pos hget]
      refine ih.mono fun h' o' _ hfollows => ?_
      rwa [SetOptions.follows_cons (by rw [hget]; decide)]
  | case6 opt o hnx hxx hkeep hget hexp =>
      rw [setOptions, if_neg hnx, if_neg hxx, if_neg hkeep, if_neg hget, if_pos hexp]
      exact meets_fail _
  | case7 opt o hnx hxx hkeep hget hexp arg rest ih =>
      rw [setOptions, if_neg hnx, if_neg hxx, if_neg hkeep, if_neg hget, if_pos hexp]
      rw [meets_bind, meets_ofExcept]
      intro n hn
      split
      · exact meets_fail _
      · next hpos =>
          have hpos := toInt_pos_of_not_le hpos
          rw [meets_bind]
          refine (meets_deadline hpos).mono fun h' r _ hr => (ih r).mono fun h'' o' hpre hfollows => ?_
          have hasked : expiryAsked (opt :: arg :: rest) = (expiryAsked rest).or (some (upper opt, n)) := by
            rw [expiryAsked, if_pos hexp, hn]
            rfl
          unfold SetOptions.Follows at hfollows ⊢
          rw [hasked]
          cases hrest : expiryAsked rest with
          | some p =>
              rw [hrest] at hfollows
              exact hfollows
          | none =>
              rw [hrest] at hfollows
              obtain ⟨e, rfl⟩ := hr.2 hexp
              exact ⟨e, hfollows, (hr.1 e rfl).mono hpre⟩
  | case8 opt rest o hnx hxx hkeep hget hexp =>
      rw [setOptions.eq_def]
      dsimp only
      rw [if_neg hnx, if_neg hxx, if_neg hkeep, if_neg hget, if_neg hexp]
      exact meets_fail _

omit [Codec] in
theorem SetOptions.Follows.mono {l : List Bytes} {before : Option Int64} {h' : Asked} {o : SetOptions}
    (ho : Follows l before h o) (hpre : h <+: h') : Follows l before h' o := by
  unfold Follows at ho ⊢
  split
  · next option n hreq =>
      rw [hreq] at ho
      obtain ⟨e, he, ht⟩ := ho
      exact ⟨e, he, ht.mono hpre⟩
  · next hreq =>
      rw [hreq] at ho
      exact ho

omit [Codec] in
/-- The deadline asked for, if one is, is stored. -/
theorem SetOptions.Follows.expiresAt_timed {l : List Bytes} {o : SetOptions} (ho : o.Follows l none h)
    (old : Option (Value × Meta)) {option : String} {n : Int64} (hreq : expiryAsked l = some (option, n)) :
    Timed h option n (o.expiresAt old) := by
  unfold Follows at ho
  rw [hreq] at ho
  obtain ⟨e, he, ht⟩ := ho
  unfold expiresAt
  rw [he]
  exact ht

omit [Codec] in
theorem dated_of_request_none (op : Op) : Dated none h op := fun _ _ _ _ _ _ _ _ _ hreq => nomatch hreq

omit [Codec] in
theorem dated_of_not_pos {option : String} {n : Int64} (hn : ¬ 0 < n.toInt) (op : Op) : Dated (some (option, n)) h op := by
  intro _ _ _ _ _ _ _ option' n' hreq hpos
  obtain ⟨-, rfl⟩ := Prod.mk.inj (Option.some.inj hreq)
  exact absurd hpos hn

omit [Codec] in
theorem meets_oldBytes {P : Asked → Op → Prop} (old : Option (Value × Meta)) (get : Bool) :
    Meets P (fun h' _ => h' = h) h (oldBytes old get) := by
  unfold oldBytes
  split
  · split
    · exact rfl
    · exact meets_fail _
  · exact rfl

omit [Codec] in
theorem meets_del (k : String) : Meets (Dated request) (fun _ _ => True) h (Cmd.del k) := by
  unfold Cmd.del
  rw [meets_bind, meets_cmdAsk]
  refine ⟨dated_of_ne (fun ops => nofun), fun found => ?_⟩
  cases found with
  | none => trivial
  | some ty =>
      dsimp only
      rw [meets_bind, meets_apply]
      refine ⟨fun ops hops k' v e msgpack hmem => ?_, fun _ => trivial⟩
      obtain rfl := Op.apply.inj hops
      exact nomatch List.mem_singleton.mp hmem

omit [Codec] in
theorem meets_set (args : List Bytes) :
    Meets (Dated (expiryAsked (args.drop 3))) (fun _ _ => True) h (set args) := by
  unfold set
  rw [meets_bind, meets_ofExcept]
  intro _ _
  rw [meets_bind, meets_ofExcept]
  intro k _
  rw [meets_bind]
  refine (meets_setOptions (args.drop 3) ⟨false, false, false, false, none⟩).mono fun h' o _ ho => ?_
  split
  · exact meets_fail _
  · rw [meets_bind, meets_get]
    refine ⟨dated_of_ne (fun ops => nofun), fun old => ?_⟩
    rw [meets_bind]
    refine (meets_oldBytes old o.get).mono fun h'' bytes _ hsame => ?_
    subst hsame
    have hlater := ho.mono (List.prefix_append h' [⟨.kvGet k, .ok old⟩])
    dsimp only
    split
    · split <;> trivial
    · rw [meets_bind, meets_put]
      refine ⟨dated_put fun option n hreq _ => hlater.expiresAt_timed old hreq, fun _ => ?_⟩
      split <;> trivial

omit [Codec] in
theorem meets_setex (name : String) (args : List Bytes) :
    Meets (Dated ((int (args.getD 2 [])).toOption.map fun n => (name, n))) (fun _ _ => True) h (setex name args) := by
  unfold setex
  rw [meets_bind, meets_ofExcept]
  intro _ _
  rw [meets_bind, meets_ofExcept]
  intro k _
  rw [meets_bind, meets_ofExcept]
  intro n hn
  split
  · exact meets_fail _
  · next hpos =>
      rw [meets_bind, hn]
      refine (meets_deadline (toInt_pos_of_not_le hpos)).mono fun h' r _ hr => ?_
      cases r with
      | none => trivial
      | some e =>
          dsimp only
          rw [meets_bind, meets_put]
          refine ⟨dated_put fun option n' hreq _ => ?_, fun _ => trivial⟩
          obtain ⟨rfl, rfl⟩ := Prod.mk.inj (Option.some.inj hreq)
          exact hr.1 e rfl

omit [Codec] in
theorem meets_expire (name : String) (args : List Bytes) :
    Meets (Dated ((int (args.getD 2 [])).toOption.map fun n => (name, n))) (fun _ _ => True) h (expire name args) := by
  cases hint : int (args.getD 2 []) with
  | error e => exact meets_of_forall (fun _ => dated_of_request_none) (fun _ _ => trivial) _
  | ok n =>
      by_cases hpos : 0 < n.toInt
      · unfold expire
        rw [meets_bind, meets_ofExcept]
        intro _ _
        rw [meets_bind, meets_ofExcept]
        intro k _
        rw [meets_bind, meets_ofExcept]
        intro n' hn'
        obtain rfl := Except.ok.inj (hint.symm.trans hn')
        rw [meets_bind, meets_ofExcept]
        intro o _
        split
        · exact meets_fail _
        · rw [meets_bind]
          refine (meets_deadline hpos).mono fun h₁ r _ hr => ?_
          cases r with
          | none => trivial
          | some e =>
              dsimp only
              rw [meets_bind, meets_get]
              refine ⟨dated_of_ne (fun ops => nofun), fun old => ?_⟩
              cases old with
              | none => trivial
              | some old =>
                  dsimp only
                  split
                  · trivial
                  · rw [meets_bind, meets_now]
                    refine ⟨dated_of_ne (fun ops => nofun), fun now => ?_⟩
                    split
                    · rw [meets_bind]
                      exact (meets_del k).mono fun _ _ _ _ => trivial
                    · rw [meets_bind, meets_putAs]
                      refine ⟨dated_put fun option n' hreq _ => ?_, fun _ => trivial⟩
                      obtain ⟨rfl, rfl⟩ := Prod.mk.inj (Option.some.inj hreq)
                      refine ((hr.1 e rfl).mono ?_)
                      rw [List.append_assoc]
                      exact List.prefix_append _ _
      · exact meets_of_forall (fun _ => dated_of_not_pos hpos) (fun _ _ => trivial) _

omit [Codec] in
/-- The deadline `GETEX` asks for is the one its option asks for. -/
theorem meets_getexDeadline (args : List Bytes) :
    Meets (Dated request) (fun h r => ∀ e, r = some e → ∀ option n,
      ((int (args.getD 3 [])).toOption.map fun n => (upper (args.getD 2 []), n)) = some (option, n) → 0 < n.toInt →
        Timed h option n e) h (getexDeadline args) := by
  unfold getexDeadline
  split
  · exact fun e he => nomatch he
  · next o ho =>
      have hopt : upper (args.getD 2 []) = o := by
        rw [List.getD_eq_getElem?_getD]
        cases harg : args[2]? with
        | none =>
            rw [harg] at ho
            exact nomatch ho
        | some arg =>
            rw [harg] at ho
            exact Option.some.inj ho
      split
      · next hpersist =>
          intro e he option n hreq
          have harg : args.getD 3 [] = [] := by
            rw [List.getD_eq_getElem?_getD, List.getElem?_eq_none (le_of_eq hpersist.2), Option.getD_none]
          rw [harg, show (int []).toOption = none by decide] at hreq
          exact nomatch hreq
      · split
        · rw [meets_bind, meets_ofExcept]
          intro n hn
          split
          · exact meets_fail _
          · next hpos =>
              rw [meets_bind]
              refine (meets_deadline (toInt_pos_of_not_le hpos)).mono fun h' r _ hr => ?_
              cases r with
              | none => exact meets_fail _
              | some e =>
                  intro e' he' option n' hreq _
                  rw [hn] at hreq
                  obtain ⟨rfl, rfl⟩ := Prod.mk.inj (Option.some.inj hreq)
                  rw [hopt, ← Option.some.inj he']
                  exact hr.1 e rfl
        · exact meets_fail _

omit [Codec] in
theorem meets_getex (args : List Bytes) :
    Meets (Dated ((int (args.getD 3 [])).toOption.map fun n => (upper (args.getD 2 []), n))) (fun _ _ => True) h (getex args) := by
  unfold getex
  rw [meets_bind, meets_ofExcept]
  intro _ _
  rw [meets_bind, meets_ofExcept]
  intro k _
  rw [meets_bind, meets_get]
  refine ⟨dated_of_ne (fun ops => nofun), fun found => ?_⟩
  cases found with
  | none => trivial
  | some found =>
      obtain ⟨v, m⟩ := found
      dsimp only
      split
      · exact meets_fail _
      · next bytes _ =>
          rw [meets_bind]
          refine (meets_getexDeadline args).mono fun h' r _ hr => ?_
          split
          · next e he =>
              obtain ⟨hr', -⟩ := Option.filter_eq_some_iff.mp he
              rw [meets_bind, meets_putAs]
              exact ⟨dated_put fun option n hreq hpos => hr e hr' option n hreq hpos, fun _ => trivial⟩
          · trivial

/-- What `TTL` answers: no key, no deadline, or the time left before the one that is stored. -/
def TtlReply (name : String) (h : Asked) (r : Reply) : Prop :=
  r = .int (-2) ∨ r = .int (-1) ∨ ∃ k v m, ∃ now ∈ readings h, ⟨.kvGet k, .ok (some (v, m))⟩ ∈ h ∧
    r = .int (timeLeft name m.expiresAt now)

omit [Codec] in
theorem meets_ttl (name : String) (args : List Bytes) :
    Meets (Dated none) (TtlReply name) h (ttl name args) := by
  unfold ttl
  rw [meets_bind, meets_ofExcept]
  intro _ _
  rw [meets_bind, meets_ofExcept]
  intro k _
  rw [meets_bind, meets_get]
  refine ⟨dated_of_ne (fun ops => nofun), fun found => ?_⟩
  cases found with
  | none => exact .inl rfl
  | some found =>
      obtain ⟨v, m⟩ := found
      dsimp only
      split
      · exact .inr (.inl rfl)
      · rw [meets_bind, meets_now]
        refine ⟨dated_of_ne (fun ops => nofun), fun now => .inr (.inr ⟨k, v, m, now, readings_now _ _, ?_, rfl⟩)⟩
        exact List.mem_append_left _ (List.mem_append_right _ (List.mem_singleton.mpr rfl))

end

end KivaDb.Resp
