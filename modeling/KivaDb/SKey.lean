import KivaDb.Doc
import Mathlib.Algebra.Order.Ring.Rat

namespace KivaDb

open Std

/-- Sortable form of one scalar JSON value. Variant order groups values by
kind. -/
inductive Scalar
  | null
  | bool (b : Bool)
  | num (n : NumKey)
  | str (s : String)
  deriving DecidableEq

namespace Scalar

def rank : Scalar → Nat
  | null => 0
  | bool _ => 1
  | num _ => 2
  | str _ => 3

def cmp : Scalar → Scalar → Ordering
  | bool a, bool b => compare a b
  | num a, num b => NumKey.cmp a b
  | str a, str b => compare a b
  | a, b => compare a.rank b.rank

def amount : Scalar → ℚ
  | bool b => if b then 1 else 0
  | num n => n.value
  | _ => 0

def text : Scalar → String
  | str s => s
  | _ => ""

/-- Scalars are ordered by kind, then by value. -/
theorem cmp_eq : cmp = compareLex (compareOn rank) (compareLex (compareOn amount) (compareOn text)) := by
  have hc (a b : Bool) : compare a b = compare (if a then (1 : ℚ) else 0) (if b then 1 else 0) := by
    cases a <;> cases b <;> decide
  funext a b
  cases a <;> cases b <;> first
    | rfl
    | simp [cmp, compareLex, compareOn, rank, amount, text, NumKey.cmp_eq, hc, Ordering.then_eq]

instance : TransCmp cmp := by
  rw [cmp_eq]
  infer_instance

instance : Ord Scalar := ⟨cmp⟩

instance : TransOrd Scalar := inferInstanceAs (TransCmp cmp)

end Scalar

/-- What an index holds a document under: one value, or the values of the
fields of an index on several fields. -/
inductive SKey
  | one (s : Scalar)
  | tuple (parts : List Scalar)
  deriving DecidableEq

namespace SKey

def cmp : SKey → SKey → Ordering
  | one a, one b => Scalar.cmp a b
  | one _, tuple _ => .lt
  | tuple _, one _ => .gt
  | tuple a, tuple b => List.compareLex Scalar.cmp a b

def rank : SKey → Nat
  | one _ => 0
  | tuple _ => 1

def parts : SKey → List Scalar
  | one s => [s]
  | tuple l => l

theorem cmp_eq : cmp = compareLex (compareOn rank) (compareOn parts) := by
  funext a b
  cases a with
  | one a =>
      cases b with
      | one b =>
          have hl : List.compareLex Scalar.cmp [a] [b] = Scalar.cmp a b := by
            rw [List.compareLex_cons_cons, List.compareLex_nil_nil]
            cases Scalar.cmp a b <;> rfl
          exact hl.symm
      | tuple b => rfl
  | tuple a =>
      cases b with
      | one b => rfl
      | tuple b => rfl

instance : TransCmp cmp := by
  rw [cmp_eq]
  infer_instance

def sameKind : SKey → SKey → Bool
  | one a, one b => a.rank == b.rank
  | tuple _, tuple _ => true
  | _, _ => false

end SKey

end KivaDb
