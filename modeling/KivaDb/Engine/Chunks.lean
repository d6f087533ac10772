import KivaDb.Glob
import KivaDb.Lib.Lex
import KivaDb.Log
import Mathlib.Data.String.Basic
import Mathlib.Data.List.Sort
import Mathlib.Data.List.TakeWhile

namespace KivaDb.Engine

open Lib.Lex

/-- Keys are compared as the index compares them. -/
scoped instance (priority := high) decidableKeyLT : DecidableLT String := fun a b =>
  decidable_of_iff ((compare a b).isLT = true) (by rw [Ordering.isLT_iff_eq_lt, compare_lt_iff_lt])

scoped instance (priority := high) decidableKeyLE : DecidableLE String := fun a b =>
  decidable_of_iff ((compare a b).isLE = true) (by rw [Ordering.isLE_iff_ne_gt, ← compare_le_iff_le])

def fromU32 (n : Nat) : Option Char := if h : n.isValidChar then some (Char.ofNatAux n h) else none

/-- The next character there is. -/
def nextChar (c : Char) : Option Char := (List.range' (c.toNat + 1) (0x10ffff - c.toNat)).findSome? fromU32

/-- The smallest text after every text starting with `p`; `none` when there is
none. -/
def prefixSuccessor (p : List Char) : Option (List Char) := (above nextChar p.reverse).map List.reverse

/-- An end of a range of keys. -/
inductive Bound
  | included (s : String)
  | excluded (s : String)
  | unbounded

namespace Bound

def below : Bound → String → Bool
  | included s, k => s ≤ k
  | excluded s, k => s < k
  | unbounded, _ => true

def above : Bound → String → Bool
  | included s, k => k ≤ s
  | excluded s, k => k < s
  | unbounded, _ => true

/-- The ranges that stop the program. -/
def panics : Bound → Bound → Bool
  | excluded a, excluded b => b ≤ a
  | included a, included b => b < a
  | included a, excluded b => b < a
  | excluded a, included b => b < a
  | _, _ => false

end Bound

/-- The keys of the index that pass `p`, in order. -/
def keysWhere (ix : Index) (p : String → Bool) : List String := (ix.filter fun k _ => p k).keys

/-- Where the keys of the prefix behind `from_` end, and where they begin when they
are read back from their end. -/
def upper (pre : List Char) (from_ : Option String) : Bound :=
  match from_, (prefixSuccessor pre).map String.ofList with
  | some f, some e => if e < f then .excluded e else .excluded f
  | some f, none => .excluded f
  | none, some e => .excluded e
  | none, none => .unbounded

def lower (pre : List Char) : Option String → Bound
  | some f => if String.ofList pre ≤ f then .excluded f else .included (String.ofList pre)
  | none => .included (String.ofList pre)

/-- What is read behind `from_`. -/
def past (from_ : Option String) (reverse : Bool) (k : String) : Bool :=
  from_.all fun f => if reverse then k < f else f < k

/-- All keys of the prefix behind `from_`, as they are to be read. -/
def keysFrom (ix : Index) (pre : List Char) (from_ : Option String) (reverse : Bool) : List String :=
  let ks := keysWhere ix fun k => pre.isPrefixOf k.toList && past from_ reverse k
  if reverse then ks.reverse else ks

/-- `b` is read after `a`. -/
def Ahead (reverse : Bool) (a b : String) : Prop := if reverse then b < a else a < b

namespace Ahead

variable {reverse : Bool} {a b c : String}

theorem trans (hab : Ahead reverse a b) (hbc : Ahead reverse b c) : Ahead reverse a c := by
  cases reverse with
  | false => exact lt_trans hab hbc
  | true => exact lt_trans hbc hab

theorem total (reverse : Bool) (a b : String) : Ahead reverse a b ∨ a = b ∨ Ahead reverse b a := by
  cases reverse with
  | false => exact lt_trichotomy a b
  | true => exact (lt_trichotomy b a).imp id (Or.imp Eq.symm id)

end Ahead

end KivaDb.Engine
