import Mathlib.Data.List.Lex
import Mathlib.Order.Lattice

namespace KivaDb.Lib.Lex

variable {α : Type} [LinearOrder α]

/-- The last element that has a next one is replaced by it, those behind it go;
the list is reversed. -/
def above (next : α → Option α) : List α → Option (List α)
  | [] => none
  | c :: cs =>
      match next c with
      | some n => some (n :: cs)
      | none => above next cs

variable {next : α → Option α}

end KivaDb.Lib.Lex
