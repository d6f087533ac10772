import KivaDb.Lib.LittleEndian

namespace KivaDb.Lib.Framing

variable {σ α β : Type}

/-- What is read off the front of the input, and what is left of it. -/
abbrev Parser (σ α : Type) := List σ → Option (α × List σ)

/-- Fed `frame` and anything behind it, the parser consumes `frame` and gives `a`. -/
def Consumes (p : Parser σ α) (frame : List σ) (a : α) : Prop := ∀ tail, p (frame ++ tail) = some (a, tail)

/-- Reads `n` items. -/
def times (p : Parser σ α) : Nat → Parser σ (List α)
  | 0, s => some ([], s)
  | n + 1, s => do
      let (a, s) ← p s
      let (as, s) ← times p n s
      return (a :: as, s)

namespace Consumes

variable {p : Parser σ α} {xs ys : List σ} {a : α}

theorem nil : Consumes (times p 0) [] [] := fun _ => rfl

theorem cons {n : Nat} {as : List α} (h : Consumes p xs a) (ht : Consumes (times p n) ys as) :
    Consumes (times p (n + 1)) (xs ++ ys) (a :: as) := by
  intro tail
  rw [times, List.append_assoc, h]
  change (do let (as, s) ← times p n (ys ++ tail); pure (a :: as, s)) = _
  rw [ht]
  rfl

end Consumes

/-- Readers that move on, one after the other. -/
abbrev Cursor (σ : Type) := StateT (List σ) Option

section Cursor

variable {p : Cursor σ α} {f : α → Cursor σ β} {xs ys : List σ} {a : α} {b : β}

theorem Consumes.pure (a : α) : Consumes (Pure.pure a : Cursor σ α) [] a := fun _ => rfl

theorem Consumes.bind (hp : Consumes p xs a) (hf : Consumes (f a) ys b) : Consumes (p >>= f : Cursor σ β) (xs ++ ys) b := by
  intro tail
  rw [List.append_assoc]
  change (p (xs ++ (ys ++ tail))).bind (fun r => f r.1 r.2) = _
  rw [hp]
  exact hf tail

theorem Consumes.next (hp : Consumes p xs a) (tail : List σ) : (p >>= f : Cursor σ β) (xs ++ tail) = f a tail := by
  change (p (xs ++ tail)).bind (fun r => f r.1 r.2) = _
  rw [hp]
  rfl

/-- The last of the readers. -/
theorem Consumes.last (hp : Consumes p xs a) (hf : Consumes (f a) [] b) : Consumes (p >>= f : Cursor σ β) xs b := by
  have h := hp.bind hf
  rwa [List.append_nil] at h

/-- A reader that takes nothing, then the rest. -/
theorem Consumes.after (hp : Consumes p [] a) (hf : Consumes (f a) ys b) : Consumes (p >>= f : Cursor σ β) ys b := hp.bind hf

/-- Of whatever the reader accepts, `good` holds. -/
def Gives (p : Cursor σ α) (good : α → Prop) : Prop := ∀ s a rest, p s = some (a, rest) → good a

namespace Gives

variable {good : α → Prop} {good' : β → Prop}

theorem pure {a : α} (h : good a) : Gives (Pure.pure a : Cursor σ α) good := by
  intro s b rest hb
  cases hb
  exact h

theorem fail : Gives (failure : Cursor σ α) good := by
  intro s a rest ha
  cases ha

theorem bind (hp : Gives p good) (hf : ∀ a, good a → Gives (f a) good') : Gives (p >>= f) good' := by
  intro s b rest hb
  obtain ⟨r, hr, hrest⟩ := Option.bind_eq_some_iff.mp hb
  exact hf r.1 (hp s r.1 r.2 hr) r.2 b rest hrest

theorem failed {γ : Type} {f : γ → Cursor σ β} : Gives ((failure : Cursor σ γ) >>= f) good' := by
  intro s b rest hb
  cases hb

theorem any : Gives p fun _ => True := fun _ _ _ _ => trivial

/-- What is read beside it does not matter. -/
theorem next (hf : ∀ a, Gives (f a) good') : Gives (p >>= f) good' := any.bind fun a _ => hf a

theorem mono {weaker : α → Prop} (hp : Gives p good) (h : ∀ a, good a → weaker a) : Gives p weaker :=
  fun s a rest ha => h a (hp s a rest ha)

theorem times (hp : Gives p good) (n : Nat) : Gives (times p n) fun as => as.length = n ∧ ∀ a ∈ as, good a := by
  induction n with
  | zero => exact pure ⟨rfl, fun a ha => absurd ha List.not_mem_nil⟩
  | succ n ih =>
      intro s as rest has
      obtain ⟨r, hr, has⟩ := Option.bind_eq_some_iff.mp has
      obtain ⟨r', hr', has⟩ := Option.bind_eq_some_iff.mp has
      obtain ⟨hlen, hall⟩ := ih r.2 r'.1 r'.2 hr'
      cases has
      exact ⟨congrArg (· + 1) hlen, List.forall_mem_cons.mpr ⟨hp s r.1 r.2 hr, hall⟩⟩

end Gives

theorem Consumes.times_map {f : β → α} {g : β → List σ} {bs : List β} (h : ∀ b ∈ bs, Consumes p (g b) (f b)) :
    Consumes (times p bs.length) (bs.flatMap g) (bs.map f) := by
  induction bs with
  | nil => exact Consumes.nil
  | cons b bs ih =>
      rw [List.flatMap_cons]
      exact (h b List.mem_cons_self).cons (ih fun b' hb' => h b' (List.mem_cons_of_mem _ hb'))

theorem Consumes.times {g : α → List σ} {as : List α} (h : ∀ a ∈ as, Consumes p (g a) a) :
    Consumes (times p as.length) (as.flatMap g) as := by
  have hmap := Consumes.times_map (f := fun a => a) h
  rwa [List.map_id'] at hmap

end Cursor

section Fixed

open LittleEndian

/-- The next `n` bytes. -/
def take (n : Nat) : Cursor UInt8 Bytes := fun b => if n ≤ b.length then some (b.take n, b.drop n) else none

def u8 : Cursor UInt8 UInt8 := do return u8At (← take 1) 0

theorem Consumes.take (b : Bytes) : Consumes (take b.length) b b := by
  intro tail
  rw [Framing.take, if_pos (by rw [List.length_append]; omega), List.take_left, List.drop_left]

theorem Consumes.take_of {b : Bytes} {n : Nat} (h : b.length = n) : Consumes (Framing.take n) b b := h ▸ Consumes.take b

theorem Consumes.u8 (c : UInt8) : Consumes u8 [c] c := (Consumes.take [c]).last (Consumes.pure c)

/-- A byte, then the rest. -/
theorem Consumes.byte {c : UInt8} {f : UInt8 → Cursor UInt8 β} {ys : Bytes} {b : β} (h : Consumes (f c) ys b) :
    Consumes (Framing.u8 >>= f : Cursor UInt8 β) (c :: ys) b := (Consumes.u8 c).bind h

theorem Gives.take (n : Nat) : Gives (take n) fun b => b.length = n := by
  intro s b rest hb
  rw [Framing.take] at hb
  split at hb
  · next hle =>
    cases hb
    exact List.length_take_of_le hle
  · cases hb

end Fixed

section Lines

open LittleEndian

def crlf : Bytes := [13, 10]

/-- What comes before the first line break. -/
def line : Parser UInt8 Bytes
  | [] => none
  | 13 :: 10 :: rest => some ([], rest)
  | b :: rest => do
      let (l, rest) ← line rest
      return (b :: l, rest)

theorem consumes_line {l : Bytes} (h : 13 ∉ l) : Consumes line (l ++ crlf) l := by
  intro tail
  induction l with
  | nil => rfl
  | cons b l ih =>
      rw [List.mem_cons, not_or] at h
      have hline (rest : Bytes) : line (b :: rest) = do
          let (l, rest) ← line rest
          return (b :: l, rest) := by
        rw [line.eq_def]
        split
        · next heq => exact nomatch heq
        · next heq => exact absurd (List.cons.inj heq).1.symm h.1
        · next heq =>
          obtain ⟨rfl, rfl⟩ := List.cons.inj heq
          rfl
      rw [List.cons_append, List.cons_append, hline, ih h.2]
      rfl

/-- `n` bytes and a line break. -/
def chunk (n : Nat) : Parser UInt8 Bytes := fun b =>
  if n + 2 ≤ b.length ∧ (b.drop n).take 2 = crlf then some (b.take n, b.drop (n + 2)) else none

theorem consumes_chunk (b : Bytes) : Consumes (chunk b.length) (b ++ crlf) b := by
  intro tail
  have hdrop : (b ++ crlf ++ tail).drop b.length = crlf ++ tail := by rw [List.append_assoc, List.drop_left]
  rw [chunk, if_pos]
  · rw [← List.drop_drop, hdrop, List.append_assoc, List.take_left]
    rfl
  · refine ⟨?_, ?_⟩
    · rw [List.length_append, List.length_append]
      exact Nat.le_add_right _ _
    · rw [hdrop]
      rfl

end Lines

end KivaDb.Lib.Framing
