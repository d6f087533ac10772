import KivaDb.Format

namespace KivaDb

open Lib.LittleEndian Lib.Utf8

/-- The error as users read it. -/
def KivaError.text : KivaError → String
  | io m => s!"I/O error: {m}"
  | corrupted m => s!"ERR_DATA_CORRUPTED: {m}"
  | locked m => s!"database is locked by another process: {m}"
  | format m => s!"invalid database file: {m}"
  | invalid m => m
  | notFound m => m
  | .exists m => m
  | .type m => s!"TypeError: {m}"
  | conflict m => s!"ERR_TRANSACTION_CONFLICT: {m}"
  | denied m => s!"permission denied: {m}"
  | readOnly m => s!"READONLY: {m}"
  | unique m => s!"UNIQUE: {m}"
  | schema m => s!"SCHEMA: {m}"
  | script m => s!"ScriptError: {m}"
  | other m => m

namespace Resp

inductive Reply
  | simple (s : String)
  | error (s : String)
  | int (n : Int64)
  | bulk (b : Option Bytes)
  | array (items : Option (List Reply))
  /-- Field-value pairs. -/
  | map (pairs : List (Reply × Reply))
  /-- Members of a set. -/
  | set (items : List Reply)
  /-- Nothing to write: the command already queued its replies. -/
  | sent

namespace Reply

mutual

def same : Reply → Reply → Bool
  | simple s, simple t => s == t
  | error s, error t => s == t
  | int n, int m => n == m
  | bulk b, bulk c => b == c
  | array none, array none => true
  | array (some l), array (some m) => sameAll l m
  | map l, map m => samePairs l m
  | set l, set m => sameAll l m
  | sent, sent => true
  | _, _ => false

def sameAll : List Reply → List Reply → Bool
  | [], [] => true
  | r :: l, s :: m => r.same s && sameAll l m
  | _, _ => false

def samePairs : List (Reply × Reply) → List (Reply × Reply) → Bool
  | [], [] => true
  | (r, r') :: l, (s, s') :: m => r.same s && r'.same s' && samePairs l m
  | _, _ => false

end

mutual

theorem same_self : (r : Reply) → r.same r = true
  | simple _ | error _ | int _ | bulk _ => by simp [same]
  | array none => rfl
  | array (some l) => sameAll_self l
  | map l => samePairs_self l
  | set l => sameAll_self l
  | sent => rfl

theorem sameAll_self : (l : List Reply) → sameAll l l = true
  | [] => rfl
  | r :: l => by rw [sameAll, same_self r, sameAll_self l]; rfl

theorem samePairs_self : (l : List (Reply × Reply)) → samePairs l l = true
  | [] => rfl
  | (r, s) :: l => by rw [samePairs, same_self r, same_self s, samePairs_self l]; rfl

end

mutual

theorem eq_of_same : (r s : Reply) → r.same s = true → r = s
  | simple _, s, h => by cases s <;> simp_all [same]
  | error _, s, h => by cases s <;> simp_all [same]
  | int _, s, h => by cases s <;> simp_all [same]
  | bulk _, s, h => by cases s <;> simp_all [same]
  | array none, s, h => by
      cases s with
      | array m => cases m <;> simp_all [same]
      | _ => simp [same] at h
  | array (some l), s, h => by
      cases s with
      | array m =>
          cases m with
          | none => simp [same] at h
          | some m => rw [eq_of_sameAll l m h]
      | _ => simp [same] at h
  | map l, s, h => by
      cases s with
      | map m => rw [eq_of_samePairs l m h]
      | _ => simp [same] at h
  | set l, s, h => by
      cases s with
      | set m => rw [eq_of_sameAll l m h]
      | _ => simp [same] at h
  | sent, s, h => by cases s <;> simp_all [same]

theorem eq_of_sameAll : (l m : List Reply) → sameAll l m = true → l = m
  | [], [], _ => rfl
  | [], _ :: _, h => by simp [sameAll] at h
  | _ :: _, [], h => by simp [sameAll] at h
  | r :: l, s :: m, h => by
      rw [sameAll, Bool.and_eq_true] at h
      rw [eq_of_same r s h.1, eq_of_sameAll l m h.2]

theorem eq_of_samePairs : (l m : List (Reply × Reply)) → samePairs l m = true → l = m
  | [], [], _ => rfl
  | [], _ :: _, h => by simp [samePairs] at h
  | _ :: _, [], h => by simp [samePairs] at h
  | (r, r') :: l, (s, s') :: m, h => by
      rw [samePairs, Bool.and_eq_true, Bool.and_eq_true] at h
      rw [eq_of_same r s h.1.1, eq_of_same r' s' h.1.2, eq_of_samePairs l m h.2]

end

instance : DecidableEq Reply := fun r s => decidable_of_iff (r.same s = true) ⟨eq_of_same r s, fun h => h ▸ same_self r⟩

def ok : Reply := .simple "OK"

def nil : Reply := .bulk none

def text (s : String) : Reply := .bulk (some (asBytes s))

theorem text_injective {s t : String} (h : Reply.text s = .text t) : s = t := by
  simp only [Reply.text, Reply.bulk.injEq, Option.some.injEq] at h
  exact asBytes_injective h

def err (msg : String) : Reply := .error s!"ERR {msg}"

def wrongType : Reply := .error "WRONGTYPE Operation against a key holding the wrong kind of value"

def isError : Reply → Bool
  | error _ => true
  | _ => false

def ofError : KivaError → Reply
  | .denied m => if m.startsWith "authentication required" then .error "NOAUTH Authentication required."
      else .error s!"NOPERM {m}"
  | .readOnly m => .error s!"READONLY {m}"
  | .conflict m => .error s!"EXECABORT {m}"
  | .unique m => .error s!"UNIQUE {m}"
  | .schema m => .error s!"SCHEMA {m}"
  | other => err other.text

end Reply

/-- The length of the sequence that begins with `lead`; 0 when none does. -/
def width (lead : UInt8) : Nat :=
  if lead < 0x80 then 1
  else if 0xC2 ≤ lead ∧ lead ≤ 0xDF then 2
  else if 0xE0 ≤ lead ∧ lead ≤ 0xEF then 3
  else if 0xF0 ≤ lead ∧ lead ≤ 0xF4 then 4
  else 0

/-- Whether `b` may come second in a sequence that begins with `lead`. -/
def second (lead b : UInt8) : Bool :=
  if lead = 0xE0 then 0xA0 ≤ b ∧ b ≤ 0xBF
  else if lead = 0xED then 0x80 ≤ b ∧ b ≤ 0x9F
  else if lead = 0xF0 then 0x90 ≤ b ∧ b ≤ 0xBF
  else if lead = 0xF4 then 0x80 ≤ b ∧ b ≤ 0x8F
  else 0x80 ≤ b ∧ b ≤ 0xBF

/-- The bytes after `lead` that may belong to its sequence. -/
def follow (lead : UInt8) : Bytes → Bytes
  | [] => []
  | b :: rest =>
      if width lead ≤ 1 ∨ second lead b = false then []
      else b :: (rest.take (width lead - 2)).takeWhile fun c => 0x80 ≤ c ∧ c ≤ 0xBF

def lossyFrom : Nat → Bytes → List Char
  | 0, _ => []
  | _, [] => []
  | fuel + 1, lead :: rest =>
      let more := follow lead rest
      let next := lossyFrom fuel (rest.drop more.length)
      match if more.length + 1 = width lead then fromUtf8 (lead :: more) else none with
      | some s => s.toList ++ next
      | none => '\uFFFD' :: next

/-- The text of `b`, with a replacement character for every invalid sequence. -/
def lossy (b : Bytes) : String := String.ofList (lossyFrom b.length b)

/-- The name of a command or an option. -/
def upper (b : Bytes) : String := (lossy b).toUpper

def lower (b : Bytes) : String := (lossy b).toLower

def text (arg : Bytes) : Except Reply String :=
  match fromUtf8 arg with
  | some s => .ok s
  | none => .error (.err "arguments must be valid UTF-8 text")

def isControl (c : Char) : Bool := c.toNat < 0x20 || (0x7F ≤ c.toNat && c.toNat < 0xA0)

def key (arg : Bytes) : Except Reply String := do
  let k ← text arg
  if k = "" ∨ Format.maxKeyLen < arg.length ∨ k.toList.any isControl then
    .error (.err "invalid key: KivaDB keys are 1 to 1024 bytes of text without control characters")
  else .ok k

/-- A sign, and what follows it. -/
def signed : List Char → Bool × List Char
  | '-' :: t => (true, t)
  | '+' :: t => (false, t)
  | t => (false, t)

/-- A whole number in decimal, with a sign or none, that fits in 64 bits. -/
def parseI64 (s : String) : Option Int64 :=
  let (neg, ds) := signed s.toList
  if ds.isEmpty || !ds.all Char.isDigit then none
  else
    let n := Nat.ofDigitChars 10 ds 0
    if neg then if n ≤ 2 ^ 63 then some (Int64.ofInt (-n)) else none
    else if n < 2 ^ 63 then some (Int64.ofNat n) else none

theorem signed_of_digits {ds : List Char} (h : ∀ c ∈ ds, c.isDigit = true) : signed ds = (false, ds) := by
  unfold signed
  split
  · exact absurd (h '-' List.mem_cons_self) (by decide)
  · exact absurd (h '+' List.mem_cons_self) (by decide)
  · rfl

theorem parseI64_toString (n : Nat) :
    parseI64 (toString n) = if n < 2 ^ 63 then some (Int64.ofNat n) else none := by
  have hdigit (c : Char) (hc : c ∈ Nat.toDigits 10 n) : c.isDigit = true :=
    Nat.isDigit_of_mem_toDigits (by decide) (by decide) hc
  have hne : (Nat.toDigits 10 n).isEmpty = false := List.isEmpty_eq_false_iff.mpr Nat.toDigits_ne_nil
  have hall : (Nat.toDigits 10 n).all Char.isDigit = true := List.all_eq_true.mpr hdigit
  have hlist : (toString n).toList = Nat.toDigits 10 n := Nat.toList_repr
  simp only [parseI64, hlist, signed_of_digits hdigit, hne, hall, Nat.ofDigitChars_ten_toDigits, Bool.not_true,
    Bool.or_self, if_false, Bool.false_eq_true]

theorem toString_injective {n m : Nat} (h : toString n = toString m) : n = m := by
  have hd : Nat.toDigits 10 n = Nat.toDigits 10 m := by
    rw [← Nat.toList_repr, ← Nat.toList_repr]
    exact congrArg String.toList h
  rw [← @Nat.ofDigitChars_ten_toDigits n, ← @Nat.ofDigitChars_ten_toDigits m, hd]

def int (arg : Bytes) : Except Reply Int64 :=
  match (fromUtf8 arg).bind parseI64 with
  | some n => .ok n
  | none => .error (.err "value is not an integer or out of range")

theorem int_toString (n : Nat) :
    int (asBytes (toString n)) =
      if n < 2 ^ 63 then .ok (Int64.ofNat n) else .error (.err "value is not an integer or out of range") := by
  simp only [int, fromUtf8_asBytes, Option.bind_some, parseI64_toString]
  by_cases hn : n < 2 ^ 63
  · simp only [if_pos hn]
  · simp only [if_neg hn]

def arity (args : List Bytes) (min : Nat) : Except Reply Unit :=
  if args.length < min then
    .error (.err s!"wrong number of arguments for '{lower (args.headD [])}' command")
  else .ok ()

end Resp

end KivaDb
