import Mathlib.Data.List.Basic

namespace KivaDb.Lib.Pages

variable {α β ε : Type}

/-- What is accepted of a list, read to its end. -/
def scan (acc : α → Except ε (Option β)) : List α → Except ε (List (α × β))
  | [] => .ok []
  | k :: ks => do
      match ← acc k with
      | none => scan acc ks
      | some v => return (k, v) :: (← scan acc ks)

/-- Reads a list until `limit` items were accepted, `n` of them before it (0: no
limit); and whether it may go on. -/
def read (acc : α → Except ε (Option β)) (limit : Nat) : List α → Nat → Except ε (List (α × β) × Bool)
  | [], _ => .ok ([], true)
  | k :: ks, n => do
      match ← acc k with
      | none => read acc limit ks n
      | some v =>
          if limit = 0 ∨ n + 1 < limit then
            let (vs, go) ← read acc limit ks (n + 1)
            return ((k, v) :: vs, go)
          else return ([(k, v)], false)

variable {acc : α → Except ε (Option β)} {limit : Nat}

end KivaDb.Lib.Pages
