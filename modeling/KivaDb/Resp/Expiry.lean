import KivaDb.Lib.Program
import KivaDb.Resp.Strings

namespace KivaDb.Resp

open Lib.LittleEndian Lib.Utf8 Lib.Program Lib.Program.Prog Lib.Saturating Front

/-- The deadline `ttl` seconds from `now`, in milliseconds; 0 (none) when `ttl` is not positive. -/
def deadlineIn (ttl now : Int64) : Int64 := if 0 < ttl then saturatingAdd now (saturatingMul ttl 1000) else 0

/-- Seconds left before `expiresAt`, rounded up. -/
def secsLeft (expiresAt now : Int64) : Int64 := (max (expiresAt - now) 0 + 999) / 1000

/-- Time left before `expiresAt`, in milliseconds or rounded to the nearest second. -/
def timeLeft (name : String) (expiresAt now : Int64) : Int64 :=
  let ms := max (expiresAt - now) 0
  if name = "TTL" then (ms + 500) / 1000 else ms

section

variable {a b exp now more : Int64} {asked : Int}

/-- The deadline asked for, or the last one there is. -/
def Exact (asked : Int) (e : Int64) : Prop := e.toInt = min asked (2 ^ 63 - 1)

theorem exact_self (a : Int64) : Exact a.toInt a := by
  have h := a.toInt_lt
  unfold Exact
  omega

theorem exact_saturatingMul (h : 0 < a.toInt) : Exact (1000 * a.toInt) (saturatingMul a 1000) := by
  have hmul : a.toInt * (1000 : Int64).toInt = 1000 * a.toInt := Int.mul_comm _ _
  rw [Exact, toInt_saturatingMul, hmul, clamp_eq_min (by omega)]

theorem exact_saturatingAdd (ha : 0 ≤ a.toInt) (hb : Exact asked b) (h : 0 < asked) :
    Exact (a.toInt + asked) (saturatingAdd a b) := by
  unfold Exact at hb
  rw [Exact, toInt_saturatingAdd, clamp_eq_min (by omega)]
  omega

/-- A plain sum gives the deadline asked for exactly where it fits. -/
theorem exact_add_iff (ha : 0 ≤ a.toInt) (hb : Exact asked b) (h : 0 < asked) :
    Exact (a.toInt + asked) (a + b) ↔ a.toInt + b.toInt < 2 ^ 63 := by
  unfold Exact at hb ⊢
  constructor
  · intro he
    by_contra hwraps
    rw [toInt_add_of_ge (by omega)] at he
    have hlt := a.toInt_lt
    omega
  · intro hlt
    rw [toInt_add_of_fits ⟨by omega, hlt⟩]
    omega

/-- No sum on the way to the time left leaves 64 bits. -/
def LeftExact (more exp now : Int64) : Prop :=
  (exp - now).toInt = exp.toInt - now.toInt ∧
    (max (exp - now) 0 + more).toInt = (max (exp - now) 0).toInt + more.toInt

theorem leftExact_iff (hmore : 0 ≤ more.toInt) : LeftExact more exp now ↔
    -2 ^ 63 ≤ exp.toInt - now.toInt ∧ max (exp.toInt - now.toInt) 0 + more.toInt < 2 ^ 63 := by
  unfold LeftExact
  rw [add_exact_iff, toInt_max, Int64.toInt_zero, sub_exact_iff]
  unfold Lib.Saturating.Fits
  constructor
  · rintro ⟨hsub, -, hadd⟩
    rw [toInt_sub_of_fits hsub] at hadd
    exact ⟨hsub.1, hadd⟩
  · rintro ⟨hsub, hadd⟩
    have hfits : Lib.Saturating.Fits (exp.toInt - now.toInt) := ⟨hsub, by omega⟩
    rw [toInt_sub_of_fits hfits]
    exact ⟨hfits, by omega, hadd⟩

theorem toInt_div_thousand (ha : 0 ≤ a.toInt) : (a / 1000).toInt = a.toInt / 1000 := by
  rw [Int64.toInt_div_of_ne_right _ _ (by decide), show (1000 : Int64).toInt = 1000 by decide,
    Int.tdiv_eq_ediv_of_nonneg ha]

theorem secsLeft_exact (h : LeftExact 999 exp now) :
    (secsLeft exp now).toInt = (max (exp.toInt - now.toInt) 0 + 999) / 1000 := by
  obtain ⟨hsub, hadd⟩ := h
  rw [toInt_max, Int64.toInt_zero, hsub, show (999 : Int64).toInt = 999 by decide] at hadd
  rw [secsLeft, toInt_div_thousand (by omega), hadd]

theorem timeLeft_exact {name : String} (h : LeftExact (if name = "TTL" then 500 else 0) exp now) :
    (timeLeft name exp now).toInt =
      if name = "TTL" then (max (exp.toInt - now.toInt) 0 + 500) / 1000 else max (exp.toInt - now.toInt) 0 := by
  obtain ⟨hsub, hadd⟩ := h
  unfold timeLeft
  split
  · next hname =>
      rw [if_pos hname, toInt_max, Int64.toInt_zero, hsub, show (500 : Int64).toInt = 500 by decide] at hadd
      rw [toInt_div_thousand (by omega), hadd]
  · rw [toInt_max, Int64.toInt_zero, hsub]

end

section

variable [External] [Chrono] [Codec] [Vectors]

/-- The deadline of a Redis expiry option. -/
def deadline (option : String) (n : Int64) : Cmd (Option Int64) := do
  if option ∈ ["EX", "EXPIRE", "SETEX"] then
    let now : Int64 ← Cmd.ask .now
    return some (saturatingAdd now (saturatingMul n 1000))
  else if option ∈ ["PX", "PEXPIRE", "PSETEX"] then
    let now : Int64 ← Cmd.ask .now
    return some (saturatingAdd now n)
  else if option ∈ ["EXAT", "EXPIREAT"] then return some (saturatingMul n 1000)
  else if option ∈ ["PXAT", "PEXPIREAT"] then return some n
  else return none

/-- Options of `SET`. -/
structure SetOptions where
  nx : Bool
  xx : Bool
  keep : Bool
  get : Bool
  exp : Option Int64

def setOptions : List Bytes → SetOptions → Cmd SetOptions
  | [], o => return o
  | opt :: rest, o =>
      if upper opt = "NX" then setOptions rest { o with nx := true }
      else if upper opt = "XX" then setOptions rest { o with xx := true }
      else if upper opt = "KEEPTTL" then setOptions rest { o with keep := true }
      else if upper opt = "GET" then setOptions rest { o with get := true }
      else if upper opt ∈ ["EX", "PX", "EXAT", "PXAT"] then
        match rest with
        | [] => .fail (.err "syntax error")
        | arg :: rest => do
            let n ← Prog.ofExcept (int arg)
            if n ≤ 0 then .fail (.err "invalid expire time in 'set' command")
            else
              let exp ← deadline (upper opt) n
              setOptions rest { o with exp }
      else .fail (.err "syntax error")

/-- What `SET GET` answers. -/
def oldBytes : Option (Value × Meta) → Bool → Cmd (Option Bytes)
  | some (v, _), true =>
      match bytesOf v with
      | some b => return some b
      | none => .fail .wrongType
  | _, _ => return none

/-- The deadline `SET` stores. -/
def SetOptions.expiresAt (o : SetOptions) (old : Option (Value × Meta)) : Int64 :=
  match o.exp, o.keep, old with
  | some e, _, _ => e
  | none, true, some (_, m) => m.expiresAt
  | _, _, _ => 0

def set (args : List Bytes) : Cmd Reply := do
  Prog.ofExcept (arity args 3)
  let k ← Prog.ofExcept (key (args.getD 1 []))
  let value := valueOf (args.getD 2 [])
  let o ← setOptions (args.drop 3) ⟨false, false, false, false, none⟩
  if (o.nx ∧ o.xx) ∨ (o.keep ∧ o.exp.isSome) then .fail (.err "syntax error")
  else
    let old ← Cmd.get k
    let bytes ← oldBytes old o.get
    let skip : Bool := (o.nx && old.isSome) || (o.xx && old.isNone)
    if skip then return (if o.get then .bulk bytes else .nil)
    else
      Cmd.put k value (o.expiresAt old)
      return (if o.get then .bulk bytes else .ok)

/-- `SETEX` and `PSETEX`. -/
def setex (name : String) (args : List Bytes) : Cmd Reply := do
  Prog.ofExcept (arity args 4)
  let k ← Prog.ofExcept (key (args.getD 1 []))
  let n ← Prog.ofExcept (int (args.getD 2 []))
  if n ≤ 0 then .fail (.err s!"invalid expire time in '{name.toLower}' command")
  else
    match ← deadline name n with
    -- never: the name is one of an expiry command
    | none => return .sent
    | some exp =>
        Cmd.put k (valueOf (args.getD 3 [])) exp
        return .ok

structure ExpireOptions where
  nx : Bool
  xx : Bool
  gt : Bool
  lt : Bool

def expireOptions : List Bytes → ExpireOptions → Except Reply ExpireOptions
  | [], o => .ok o
  | opt :: rest, o =>
      if upper opt = "NX" then expireOptions rest { o with nx := true }
      else if upper opt = "XX" then expireOptions rest { o with xx := true }
      else if upper opt = "GT" then expireOptions rest { o with gt := true }
      else if upper opt = "LT" then expireOptions rest { o with lt := true }
      else .error (.err s!"Unsupported option {upper opt}")

/-- 0 means "no expiry", which counts as infinitely far for GT and LT. -/
def ExpireOptions.allowed (o : ExpireOptions) (cur exp : Int64) : Bool :=
  if o.nx then cur = 0
  else (!o.xx || cur ≠ 0) && (!o.gt || (cur ≠ 0 && cur < exp)) && (!o.lt || cur = 0 || exp < cur)

def putAs (k : String) (v : Value) (expiresAt : Int64) (msgpack : Bool) : Cmd Unit :=
  Cmd.ask (.apply [.put k v expiresAt msgpack])

/-- `EXPIRE`, `PEXPIRE`, `EXPIREAT` and `PEXPIREAT`. -/
def expire (name : String) (args : List Bytes) : Cmd Reply := do
  Prog.ofExcept (arity args 3)
  let k ← Prog.ofExcept (key (args.getD 1 []))
  let n ← Prog.ofExcept (int (args.getD 2 []))
  let o ← Prog.ofExcept (expireOptions (args.drop 3) ⟨false, false, false, false⟩)
  if (o.nx ∧ (o.xx ∨ o.gt ∨ o.lt)) ∨ (o.gt ∧ o.lt) then
    .fail (.err "NX and XX, GT or LT options at the same time are not compatible")
  else
    match ← deadline name n with
    -- never, as above
    | none => return .sent
    | some exp =>
        match ← Cmd.get k with
        | none => return .int 0
        | some (v, m) =>
            if o.allowed m.expiresAt exp = false then return .int 0
            else
              let now : Int64 ← Cmd.ask .now
              if exp ≤ now then
                let _ ← Cmd.del k
                return .int 1
              else
                putAs k v exp m.msgpack
                return .int 1

/-- The deadline `GETEX` asks for. -/
def getexDeadline (args : List Bytes) : Cmd (Option Int64) :=
  match args[2]?.map upper with
  | none => return none
  | some o =>
      if o = "PERSIST" ∧ args.length = 3 then return some 0
      else if args.length = 4 then do
        let n ← Prog.ofExcept (int (args.getD 3 []))
        if n ≤ 0 then .fail (.err "invalid expire time in 'getex' command")
        else
          match ← deadline o n with
          | some e => return some e
          | none => .fail (.err "syntax error")
      else .fail (.err "syntax error")

def getex (args : List Bytes) : Cmd Reply := do
  Prog.ofExcept (arity args 2)
  let k ← Prog.ofExcept (key (args.getD 1 []))
  match ← Cmd.get k with
  | none => return .nil
  | some (v, m) =>
      match bytesOf v with
      | none => .fail .wrongType
      | some bytes =>
          match (← getexDeadline args).filter (· ≠ m.expiresAt) with
          | some e =>
              putAs k v e m.msgpack
              return .bulk (some bytes)
          | none => return .bulk (some bytes)

/-- `TTL` and `PTTL`. -/
def ttl (name : String) (args : List Bytes) : Cmd Reply := do
  Prog.ofExcept (arity args 2)
  let k ← Prog.ofExcept (key (args.getD 1 []))
  match ← Cmd.get k with
  | none => return .int (-2)
  | some (_, m) =>
      if m.expiresAt = 0 then return .int (-1)
      else
        let now : Int64 ← Cmd.ask .now
        return .int (timeLeft name m.expiresAt now)

end

end KivaDb.Resp
