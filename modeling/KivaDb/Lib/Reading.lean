import KivaDb.Lib.Fallible
import KivaDb.Lib.LittleEndian
import Mathlib.Tactic.Linarith
import Mathlib.Tactic.Ring

namespace KivaDb.Lib.Reading

open Fallible LittleEndian

/-- Why a reading stops: the bytes are refused, or the program breaks. -/
inductive Stop
  | panic
  | bad (why : String)
  deriving DecidableEq

structure Reader where
  b : Bytes
  pos : Nat

abbrev R := EStateM Stop Reader

variable {α β : Type}

def said (why : String) (pos : Nat) : String := s!"{why} at byte {pos}"

def bad (why : String) : R α := do throw (.bad (said why (← get).pos))

def take (n : Nat) : R Bytes := do
  let r ← get
  if r.pos + n ≤ r.b.length then
    set { r with pos := r.pos + n }
    return slice r.b r.pos n
  else bad "cut short"

def byte : R UInt8 := do
  match ← take 1 with
  | [c] => return c
  | _ => throw .panic

/-- The next `n` bytes, as an array of that size. -/
def array (n : Nat) : R Bytes := do
  let bytes ← take n
  if bytes.length = n then return bytes else throw .panic

/-- Seven bits a byte, the lowest first; the top bit says that more follow. At
most `more + 1` bytes. -/
def putVarint : Nat → Nat → Bytes
  | 0, n => [UInt8.ofNat n]
  | more + 1, n => if 128 ≤ n then UInt8.ofNat (n % 128 + 128) :: putVarint more (n / 128) else [UInt8.ofNat n]

/-- The loop of a reader of at most ten bytes, `left` of them to come, with the
value `n` of those before. -/
def varintLoop : Nat → Nat → R Nat
  | 0, _ => bad "a number too large"
  | left + 1, n => do
      let c ← byte
      if left = 0 ∧ 1 < c then bad "a number too large"
      else
        let n := n ||| ((c &&& 0x7f).toNat <<< (7 * (9 - left)))
        if c &&& 0x80 = 0 then return n else varintLoop left n

def varint : R Nat := varintLoop 10 0

/-- A length or a count, never more than the bytes left. -/
def count : R Nat := do
  let n ← varint
  let r ← get
  if r.b.length < r.pos then throw .panic
  else if n ≤ r.b.length - r.pos then return n
  else bad "a length past the end"

/-- Reads `n` items. -/
def items (m : R α) : Nat → R (List α)
  | 0 => return []
  | n + 1 => do
      let a ← m
      return a :: (← items m n)

theorem bad_eq (why : String) (r : Reader) : (bad why : R α) r = .error (.bad (said why r.pos)) r := rfl

theorem take_eq (n : Nat) (r : Reader) :
    take n r = if r.pos + n ≤ r.b.length then .ok (slice r.b r.pos n) { r with pos := r.pos + n }
      else .error (.bad (said "cut short" r.pos)) r := by
  unfold take
  show (if r.pos + n ≤ r.b.length then _ else _ : R Bytes) r = _
  split
  · rfl
  · rfl

/-- From the start of `bytes`, with `need` bytes or more behind them, `a` is read
and nothing of what is behind. -/
def Reads (m : R α) (bytes : Bytes) (need : Nat) (a : α) : Prop :=
  ∀ pre post, need ≤ post.length →
    m ⟨pre ++ (bytes ++ post), pre.length⟩ = .ok a ⟨pre ++ (bytes ++ post), pre.length + bytes.length⟩

namespace Reads

variable {m : R α} {f : α → R β} {xs ys : Bytes} {k l : Nat} {a : α} {b : β}

theorem pure (a : α) : Reads (pure a) [] 0 a := fun _ _ _ => rfl

theorem bind (hm : Reads m xs k a) (hf : Reads (f a) ys l b) (hk : k ≤ ys.length + l) :
    Reads (m >>= f) (xs ++ ys) l b := by
  intro pre post hpost
  have h₁ := hm pre (ys ++ post) (by rw [List.length_append]; omega)
  have h₂ := hf (pre ++ xs) post hpost
  rw [List.append_assoc xs ys post]
  show EStateM.bind m f _ = _
  rw [EStateM.bind, h₁]
  rw [List.append_assoc pre xs, List.length_append] at h₂
  rw [List.length_append, ← Nat.add_assoc]
  exact h₂

theorem map (hm : Reads m xs k a) (g : α → β) : Reads (m >>= fun a => Pure.pure (g a)) xs k (g a) := by
  intro pre post hpost
  show EStateM.bind m _ _ = _
  rw [EStateM.bind, hm pre post hpost]
  rfl

theorem mono (hm : Reads m xs k a) (hk : k ≤ l) : Reads m xs l a := fun pre post hpost =>
  hm pre post (Nat.le_trans hk hpost)

theorem take (bytes : Bytes) : Reads (take bytes.length) bytes 0 bytes := by
  intro pre post _
  have hle : pre.length + bytes.length ≤ (pre ++ (bytes ++ post)).length := by
    simp only [List.length_append]
    omega
  rw [take_eq, if_pos hle, slice_append_mid]

theorem byte (c : UInt8) : Reads byte [c] 0 c := by
  unfold Reading.byte
  exact (take [c]).bind (pure c) (Nat.zero_le _)

theorem array (bytes : Bytes) : Reads (array bytes.length) bytes 0 bytes := by
  have h : Reads (Reading.array bytes.length) (bytes ++ []) 0 bytes := by
    refine (take bytes).bind ?_ (Nat.zero_le _)
    rw [if_pos rfl]
    exact pure bytes
  rwa [List.append_nil] at h

end Reads

theorem low_bits (k : Fin 128) : (UInt8.ofNat k &&& 0x7f).toNat = k ∧ UInt8.ofNat k &&& 0x80 = 0 := by
  revert k
  decide

theorem high_bit (k : Fin 128) :
    (UInt8.ofNat (k + 128) &&& 0x7f).toNat = k ∧ UInt8.ofNat (k + 128) &&& 0x80 ≠ 0 := by
  revert k
  decide

theorem or_shiftLeft {acc s : Nat} (h : acc < 2 ^ s) (k : Nat) : acc ||| k <<< s = acc + k * 2 ^ s := by
  rw [Nat.or_comm, ← Nat.shiftLeft_add_eq_or_of_lt h, Nat.shiftLeft_eq, Nat.add_comm]

theorem reads_last {left acc n : Nat} (hacc : acc < 2 ^ (7 * (9 - left))) (hsmall : n < 128)
    (hnot : ¬ (left = 0 ∧ 1 < UInt8.ofNat n)) :
    Reads (varintLoop (left + 1) acc) [UInt8.ofNat n] 0 (acc + n * 2 ^ (7 * (9 - left))) := by
  obtain ⟨hlow, hbit⟩ := low_bits ⟨n, hsmall⟩
  have h : Reads (varintLoop (left + 1) acc) ([UInt8.ofNat n] ++ []) 0 (acc + n * 2 ^ (7 * (9 - left))) := by
    refine (Reads.byte (UInt8.ofNat n)).bind ?_ (Nat.zero_le _)
    rw [if_neg hnot]
    dsimp only at hlow hbit ⊢
    rw [if_pos hbit, hlow, or_shiftLeft hacc]
    exact .pure _
  exact h

/-- What the loop still reads comes on top of what it has. -/
theorem reads_varintLoop {left : Nat} (hleft : left ≤ 9) {acc n : Nat} (hacc : acc < 2 ^ (7 * (9 - left)))
    (hn : n < 2 ^ (64 - 7 * (9 - left))) :
    Reads (varintLoop (left + 1) acc) (putVarint left n) 0 (acc + n * 2 ^ (7 * (9 - left))) := by
  induction left generalizing acc n with
  | zero =>
      have hn : n < 2 := by simpa using hn
      apply reads_last hacc (by omega)
      rintro ⟨-, hone⟩
      obtain rfl | rfl : n = 0 ∨ n = 1 := by omega
      · exact absurd hone (by decide)
      · exact absurd hone (by decide)
  | succ left ih =>
      have hpow : 2 ^ (7 * (9 - left)) = 2 ^ (7 * (9 - (left + 1))) * 128 := by
        rw [show 7 * (9 - left) = 7 * (9 - (left + 1)) + 7 by omega, Nat.pow_add]
      have htop : 2 ^ (64 - 7 * (9 - (left + 1))) = 2 ^ (64 - 7 * (9 - left)) * 128 := by
        rw [show 64 - 7 * (9 - (left + 1)) = 64 - 7 * (9 - left) + 7 by omega, Nat.pow_add]
      rw [putVarint]
      split
      · have hmod := Nat.mod_lt n (show 128 > 0 by decide)
        obtain ⟨hlow, hbit⟩ := high_bit ⟨n % 128, hmod⟩
        refine (Reads.byte _).bind ?_ (Nat.zero_le _)
        rw [if_neg (by simp)]
        dsimp only at hlow hbit ⊢
        rw [if_neg hbit, hlow, or_shiftLeft hacc]
        have hacc' : acc + n % 128 * 2 ^ (7 * (9 - (left + 1))) < 2 ^ (7 * (9 - left)) := by
          rw [hpow]
          nlinarith
        have hn' : n / 128 < 2 ^ (64 - 7 * (9 - left)) := by
          rw [htop] at hn
          exact Nat.div_lt_of_lt_mul (by rwa [Nat.mul_comm])
        convert ih (by omega) hacc' hn' using 1
        rw [hpow]
        calc acc + n * 2 ^ (7 * (9 - (left + 1)))
            = acc + (128 * (n / 128) + n % 128) * 2 ^ (7 * (9 - (left + 1))) := by rw [Nat.div_add_mod n 128]
          _ = _ := by ring
      · next hsmall => exact reads_last hacc (by omega) (by simp)

theorem reads_varint {n : Nat} (hn : n < 2 ^ 64) : Reads varint (putVarint 9 n) 0 n := by
  have hzero : 0 < 2 ^ (7 * (9 - 9)) := by decide
  have h := reads_varintLoop (Nat.le_refl 9) hzero (by simpa using hn)
  rwa [show 0 + n * 2 ^ (7 * (9 - 9)) = n by simp] at h

theorem reads_count {n : Nat} (hn : n < 2 ^ 64) : Reads count (putVarint 9 n) n n := by
  intro pre post hpost
  unfold count
  show EStateM.bind varint _ _ = _
  rw [EStateM.bind, reads_varint hn pre post (Nat.zero_le _)]
  have hlen : (pre ++ (putVarint 9 n ++ post)).length = pre.length + (putVarint 9 n).length + post.length := by
    simp only [List.length_append]
    omega
  show (if (pre ++ (putVarint 9 n ++ post)).length < pre.length + (putVarint 9 n).length then _
    else if n ≤ (pre ++ (putVarint 9 n ++ post)).length - (pre.length + (putVarint 9 n).length) then _ else _ : R Nat) _ = _
  rw [if_neg (by omega), if_pos (by omega)]
  rfl

/-- A reading that never panics, never leaves the bytes and gives what `p` says. -/
def Safe (p : α → Prop) (m : R α) : Prop :=
  ∀ r : Reader, r.pos ≤ r.b.length →
    (∀ a r', m r = .ok a r' → r'.b = r.b ∧ r'.pos ≤ r.b.length ∧ p a) ∧ ∀ r', m r ≠ .error .panic r'

namespace Safe

variable {p : α → Prop} {q : β → Prop} {m : R α} {f : α → R β}

theorem pure {a : α} (h : p a) : Safe p (pure a) := by
  intro r hr
  refine ⟨fun a' r' heq => ?_, fun r' heq => ?_⟩
  · obtain ⟨rfl, rfl⟩ := pure_ok.mp heq
    exact ⟨rfl, hr, h⟩
  · exact pure_error.mp heq

theorem bind (hm : Safe p m) (hf : ∀ a, p a → Safe q (f a)) : Safe q (m >>= f) := by
  intro r hr
  obtain ⟨hok, hpanic⟩ := hm r hr
  refine ⟨fun b r' heq => ?_, fun r' heq => ?_⟩
  · obtain ⟨a, r₁, hm₁, hf₁⟩ := bind_ok.mp heq
    obtain ⟨hb, hpos, ha⟩ := hok a r₁ hm₁
    obtain ⟨hb', hpos', hq⟩ := (hf a ha r₁ (by rwa [hb])).1 b r' hf₁
    rw [hb] at hb' hpos'
    exact ⟨hb', hpos', hq⟩
  · obtain hm₁ | ⟨a, r₁, hm₁, hf₁⟩ := bind_error.mp heq
    · exact hpanic r' hm₁
    · obtain ⟨hb, hpos, ha⟩ := hok a r₁ hm₁
      exact (hf a ha r₁ (by rwa [hb])).2 r' hf₁

theorem mono {p' : α → Prop} (hm : Safe p m) (h : ∀ a, p a → p' a) : Safe p' m := fun r hr =>
  ⟨fun a r' heq => ((hm r hr).1 a r' heq).imp_right (And.imp_right (h a)), (hm r hr).2⟩

theorem ite {c : Prop} [Decidable c] {m' : R α} (hm : Safe p m) (hm' : Safe p m') : Safe p (if c then m else m') := by
  split
  · exact hm
  · exact hm'

theorem bad (why : String) : Safe p (bad why : R α) := by
  intro r _
  rw [bad_eq]
  exact ⟨fun a r' heq => (nomatch heq), fun r' heq => (nomatch heq)⟩

theorem take (n : Nat) : Safe (fun b => b.length = n) (take n) := by
  intro r _
  rw [take_eq]
  split
  · next hle =>
      refine ⟨fun a r' heq => ?_, fun r' heq => (nomatch heq)⟩
      cases heq
      exact ⟨rfl, hle, length_slice hle⟩
  · exact ⟨fun a r' heq => (nomatch heq), fun r' heq => (nomatch heq)⟩

theorem byte : Safe (fun _ => True) byte := by
  refine bind (take 1) fun b hb => ?_
  obtain ⟨c, rfl⟩ := List.length_eq_one_iff.mp hb
  exact pure trivial

theorem array (n : Nat) : Safe (fun b => b.length = n) (array n) := by
  refine bind (take n) fun b hb => ?_
  rw [if_pos hb]
  exact pure hb

theorem varintLoop (left n : Nat) : Safe (fun _ => True) (varintLoop left n) := by
  induction left generalizing n with
  | zero => exact bad _
  | succ left ih =>
      refine bind byte fun c _ => ?_
      split
      · exact bad _
      · dsimp only
        split
        · exact pure trivial
        · exact ih _

theorem count : Safe (fun _ => True) count := by
  refine bind (varintLoop 10 0) fun n _ r hr => ?_
  show (∀ a r', (if r.b.length < r.pos then throw .panic
      else if n ≤ r.b.length - r.pos then Pure.pure n else Reading.bad _ : R Nat) r = .ok a r' → _) ∧
    ∀ r', (if r.b.length < r.pos then throw .panic
      else if n ≤ r.b.length - r.pos then Pure.pure n else Reading.bad _ : R Nat) r ≠ _
  rw [if_neg (Nat.not_lt.mpr hr)]
  split
  · exact pure trivial r hr
  · exact bad _ r hr

theorem items (hm : Safe p m) (n : Nat) : Safe (fun as => ∀ a ∈ as, p a) (items m n) := by
  induction n with
  | zero => exact pure (fun a ha => nomatch ha)
  | succ n ih =>
      refine bind hm fun a ha => bind ih fun as has => pure ?_
      exact List.forall_mem_cons.mpr ⟨ha, has⟩

end Safe

end KivaDb.Lib.Reading
