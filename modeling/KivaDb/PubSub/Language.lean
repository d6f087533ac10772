import KivaDb.Lib.Greedy
import KivaDb.Lib.LittleEndian

namespace KivaDb.PubSub

open Lib.Greedy Lib.LittleEndian

def star : UInt8 := 42

def one : UInt8 := 63

def opening : UInt8 := 91

def closing : UInt8 := 93

def caret : UInt8 := 94

def dash : UInt8 := 45

def backslash : UInt8 := 92

/-- Whether a byte is within two ends, in either order. -/
def within (lo hi c : UInt8) : Bool := if lo ≤ hi then lo ≤ c && c ≤ hi else hi ≤ c && c ≤ lo

section

variable (p : Bytes)

/-- The lower end of a range at `i`, behind a backslash or not, and where it stands. -/
def lowerAt (i : Nat) (x : UInt8) : Option (UInt8 × Nat) :=
  if x = backslash ∧ i + 1 < p.length then p[i + 1]?.map fun y => (y, i + 1) else some (x, i)

/-- The loop of `class`, to where the class ends; no answer where a position is out of
range, or the loop is cut short. -/
def classLoop (c : UInt8) : Nat → Nat → Bool → Option (Bool × Nat)
  | 0, _, _ => none
  | fuel + 1, i, hit =>
      if i < p.length then do
        let x ← p[i]?
        if x = closing then return (hit, i)
        else
          let (lo, i) ← lowerAt p i x
          if i + 2 < p.length ∧ p[i + 1]? = some dash ∧ p[i + 2]? ≠ some closing then
            let hi ← p[i + 2]?
            classLoop c fuel (i + 3) (hit || within lo hi c)
          else classLoop c fuel (i + 1) (hit || lo == c)
      else return (hit, i)

/-- Whether `c` is of the class that starts at `at_`, and where the pattern goes on; nothing
for an unclosed class. -/
def classAt (at_ : Nat) (c : UInt8) : Option (Option (Bool × Nat)) := do
  let negate := p[at_ + 1]? == some caret
  let start := if negate then at_ + 2 else at_ + 1
  let (hit, i) ← classLoop p c (p.length + 1) start false
  if p.length ≤ i then return none else return some (hit != negate, i + 1)

/-- What the pattern does with a byte: takes it and goes on, starts a run, or neither. -/
inductive Move
  | take (next : Nat)
  | run
  | stop

def move (pi : Nat) (c : UInt8) : Option Move := do
  let x ← p[pi]?
  if x = star then return .run
  else if x = one then return .take (pi + 1)
  else if x = opening then
    match ← classAt p pi c with
    | some (true, next) => return .take next
    | _ => return .stop
  else if x = backslash ∧ pi + 1 < p.length then
    let y ← p[pi + 1]?
    return if y = c then .take (pi + 2) else .stop
  else return if x = c then .take (pi + 1) else .stop

/-- The last `*` takes one more byte. -/
def back (go : Nat → Nat → Option (Nat × Nat) → Option Bool) : Option (Nat × Nat) → Option Bool
  | some (sp, ss) => go sp (ss + 1) (some (sp, ss + 1))
  | none => some false

/-- The loop of `glob`. `last` is where to resume after the last `*`, in the pattern and in
the text. -/
def globLoop (s : Bytes) : Nat → Nat → Nat → Option (Nat × Nat) → Option Bool
  | 0, _, _, _ => none
  | fuel + 1, pi, si, last =>
      if si < s.length then do
        let c ← s[si]?
        let m ← if pi < p.length then move p pi c else some Move.stop
        match m with
        | .take next => globLoop s fuel next (si + 1) last
        | .run => globLoop s fuel (pi + 1) si (some (pi + 1, si))
        | .stop => back (globLoop s fuel) last
      else return pi + ((p.drop pi).takeWhile (· == star)).length == p.length

end

/-- Glob matching on bytes: `*`, `?`, `[abc]`, `[a-z]`, `[^a]` and `\`, which escapes the
next byte. -/
def glob (p s : Bytes) : Option Bool := globLoop p s ((s.length + 1) * (p.length + 2)) 0 0 none

-- `[z-a]*\*` and `m*`
example : glob [91, 122, 45, 97, 93, 42, 92, 42] [109, 42] = some true := by decide

end KivaDb.PubSub

namespace KivaDb.PubSub

open Lib.Greedy Lib.LittleEndian

/-- The items of a pattern. -/
inductive Item
  | any
  | one
  | byte (b : UInt8)
  /-- The ends of each range; a member is a range of its own. -/
  | set (negate : Bool) (ranges : List (UInt8 × UInt8))
  | unclosed

/-- The lower end of a range, possibly escaped. -/
def lower (x : UInt8) : Bytes → UInt8 × Bytes
  | y :: rest => if x = backslash then (y, rest) else (x, y :: rest)
  | [] => (x, [])

/-- The upper end of a range from `lo`, which is `lo` itself for a member. -/
def upper (lo : UInt8) : Bytes → UInt8 × Bytes
  | m :: hi :: rest => if m = dash ∧ hi ≠ closing then (hi, rest) else (lo, m :: hi :: rest)
  | rest => (lo, rest)

theorem length_lower (x : UInt8) (rest : Bytes) : (lower x rest).2.length ≤ rest.length := by
  cases rest with
  | nil => exact Nat.le_refl _
  | cons y rest =>
      rw [lower]
      split
      · exact Nat.le_succ _
      · exact Nat.le_refl _

theorem length_upper (lo : UInt8) (rest : Bytes) : (upper lo rest).2.length ≤ rest.length := by
  rcases rest with _ | ⟨m, _ | ⟨hi, rest⟩⟩
  · exact Nat.le_refl _
  · exact Nat.le_refl _
  · rw [upper]
    split
    · exact Nat.le_add_right _ 2
    · exact Nat.le_refl _

theorem length_upper_lower (x : UInt8) (rest : Bytes) :
    (upper (lower x rest).1 (lower x rest).2).2.length ≤ rest.length :=
  Nat.le_trans (length_upper _ _) (length_lower x rest)

/-- The ranges of a class up to its end, and what follows; nothing for an unclosed one. -/
def ranges : Bytes → Option (List (UInt8 × UInt8) × Bytes)
  | [] => none
  | x :: rest =>
      if x = closing then some ([], rest)
      else
        let lo := lower x rest
        let hi := upper lo.1 lo.2
        (ranges hi.2).map fun r => ((lo.1, hi.1) :: r.1, r.2)
termination_by p => p.length
decreasing_by exact Nat.lt_succ_of_le (length_upper_lower x rest)

theorem ranges_closing (rest : Bytes) : ranges (closing :: rest) = some ([], rest) := by
  rw [ranges, if_pos rfl]

theorem ranges_cons {x : UInt8} (hx : x ≠ closing) (rest : Bytes) :
    ranges (x :: rest) = (ranges (upper (lower x rest).1 (lower x rest).2).2).map fun r =>
      (((lower x rest).1, (upper (lower x rest).1 (lower x rest).2).1) :: r.1, r.2) := by
  rw [ranges, if_neg hx]

theorem length_ranges {p rest : Bytes} {rs : List (UInt8 × UInt8)} (h : ranges p = some (rs, rest)) :
    rest.length < p.length := by
  induction hn : p.length using Nat.strong_induction_on generalizing p rs with
  | h n ih =>
      subst hn
      cases p with
      | nil => simp [ranges] at h
      | cons x p =>
          by_cases hx : x = closing
          · rw [hx, ranges_closing] at h
            obtain ⟨-, rfl⟩ := Prod.mk.inj (Option.some.inj h)
            exact Nat.lt_succ_self _
          · rw [ranges_cons hx, Option.map_eq_some_iff] at h
            obtain ⟨r, hr, h⟩ := h
            obtain ⟨-, rfl⟩ := Prod.mk.inj h
            have hle := length_upper_lower x p
            have hlt := ih _ (Nat.lt_succ_of_le hle) hr rfl
            exact Nat.lt_succ_of_lt (Nat.lt_of_lt_of_le hlt hle)

/-- What stands behind the `[` of a class: whether it is negated, and its ranges. -/
def body : Bytes → Bool × Bytes
  | x :: rest => if x = caret then (true, rest) else (false, x :: rest)
  | [] => (false, [])

theorem length_body (p : Bytes) : (body p).2.length ≤ p.length := by
  cases p with
  | nil => exact Nat.le_refl _
  | cons x rest =>
      rw [body]
      split
      · exact Nat.le_succ _
      · exact Nat.le_refl _

def items : Bytes → List Item
  | [] => []
  | x :: p =>
      if x = star then .any :: items p
      else if x = PubSub.one then .one :: items p
      else if x = opening then
        match _h : ranges (body p).2 with
        | some (rs, rest) => .set (body p).1 rs :: items rest
        | none => [.unclosed]
      else .byte (lower x p).1 :: items (lower x p).2
termination_by p => p.length
decreasing_by
  · exact Nat.lt_succ_self _
  · exact Nat.lt_succ_self _
  · have hlt := length_ranges _h
    have hle := length_body p
    simp only [List.length_cons]
    omega
  · exact Nat.lt_succ_of_le (length_lower x p)

@[simp] theorem items_nil : items [] = [] := by
  rw [items]

/-- The runs of bytes an item stands for. -/
def Item.Fits : Item → Bytes → Prop
  | any, _ => True
  | one, w => ∃ c, w = [c]
  | byte b, w => w = [b]
  | set negate ranges, w => ∃ c, w = [c] ∧ ((∃ r ∈ ranges, within r.1 r.2 c = true) ↔ negate = false)
  | unclosed, _ => False

/-- The text split along the items of the pattern, each given what it stands for. -/
def Matches (p s : Bytes) : Prop := ∃ ws, List.Forall₂ Item.Fits (items p) ws ∧ ws.flatten = s

/-- Whether a byte is of a class. -/
def holds (negate : Bool) (ranges : List (UInt8 × UInt8)) (c : UInt8) : Bool :=
  ranges.any (fun r => within r.1 r.2 c) != negate

/-- What an item does with a byte. -/
def on : Item → UInt8 → Verdict
  | .any, _ => .run
  | .one, _ => .take
  | .byte b, c => if b = c then .take else .stop
  | .set negate ranges, c => if holds negate ranges c then .take else .stop
  | .unclosed, _ => .stop

def Item.isAny : Item → Bool
  | any => true
  | _ => false

theorem Item.fits_singleton {x : Item} {w : Bytes} (hx : x.isAny = false) :
    x.Fits w ↔ ∃ c, w = [c] ∧ on x c = .take := by
  cases x with
  | any => exact nomatch hx
  | one => exact exists_congr fun c => (and_iff_left rfl).symm
  | byte b =>
      constructor
      · rintro rfl
        exact ⟨b, rfl, if_pos rfl⟩
      · rintro ⟨c, rfl, hc⟩
        by_cases hb : b = c
        · rw [hb]
          rfl
        · exact nomatch (if_neg hb).symm.trans hc
  | set negate rs =>
      refine exists_congr fun c => and_congr_right fun _ => ?_
      have hany : (∃ r ∈ rs, within r.1 r.2 c = true) ↔ rs.any (fun r => within r.1 r.2 c) = true :=
        List.any_eq_true.symm
      rw [hany, on, holds]
      cases rs.any (fun r => within r.1 r.2 c) <;> cases negate <;> simp
  | unclosed =>
      refine ⟨False.elim, ?_⟩
      rintro ⟨c, -, hc⟩
      exact nomatch hc

theorem on_of_not_any {x : Item} {c : UInt8} (hx : x.isAny = false) : on x c = .take ∨ on x c = .stop := by
  cases x with
  | any => exact nomatch hx
  | one => exact .inl rfl
  | byte b => exact ite_eq_or_eq _ _ _
  | set negate rs => exact ite_eq_or_eq _ _ _
  | unclosed => exact .inr rfl

theorem exists_split {x : Item} {l : List Item} {s : Bytes} :
    (∃ ws, List.Forall₂ Item.Fits (x :: l) ws ∧ ws.flatten = s) ↔
      ∃ w u, s = w ++ u ∧ x.Fits w ∧ ∃ ws, List.Forall₂ Item.Fits l ws ∧ ws.flatten = u := by
  constructor
  · rintro ⟨_, hfits, rfl⟩
    cases hfits with
    | @cons _ w _ ws hx hfits => exact ⟨w, ws.flatten, rfl, hx, ws, hfits, rfl⟩
  · rintro ⟨w, _, rfl, hx, ws, hfits, rfl⟩
    exact ⟨w :: ws, .cons hx hfits, rfl⟩

theorem reads_iff (l : List Item) (s : Bytes) :
    Reads on Item.isAny l s ↔ ∃ ws, List.Forall₂ Item.Fits l ws ∧ ws.flatten = s := by
  induction l generalizing s with
  | nil =>
      rw [Reads]
      constructor
      · rintro rfl
        exact ⟨[], .nil, rfl⟩
      · rintro ⟨_, hfits, rfl⟩
        cases hfits
        rfl
  | cons x l ih =>
      rw [exists_split]
      cases hx : x.isAny with
      | true =>
          obtain rfl : x = .any := by cases x <;> first | rfl | cases hx
          have hsuffix : (∃ u, u <:+ s ∧ Reads on Item.isAny l u) ↔
              ∃ w u, s = w ++ u ∧ Item.any.Fits w ∧ ∃ ws, List.Forall₂ Item.Fits l ws ∧ ws.flatten = u := by
            constructor
            · rintro ⟨u, ⟨w, rfl⟩, hu⟩
              exact ⟨w, u, rfl, trivial, (ih u).mp hu⟩
            · rintro ⟨w, u, rfl, -, hu⟩
              exact ⟨u, List.suffix_append w u, (ih u).mpr hu⟩
          rw [← hsuffix]
          cases s with
          | nil =>
              rw [Reads]
              simp [Item.isAny]
          | cons c s => rfl
      | false =>
          cases s with
          | nil =>
              rw [Reads, hx]
              refine ⟨fun h => (by cases h.1), ?_⟩
              rintro ⟨w, u, hw, hfits, -⟩
              obtain ⟨c, rfl, -⟩ := (Item.fits_singleton hx).mp hfits
              cases hw
          | cons c s =>
              rw [Reads]
              rcases on_of_not_any (c := c) hx with hon | hon
              · rw [hon]
                refine (ih s).trans ⟨fun h => ⟨[c], s, rfl, (Item.fits_singleton hx).mpr ⟨c, rfl, hon⟩, h⟩, ?_⟩
                rintro ⟨w, u, hw, hfits, h⟩
                obtain ⟨d, rfl, -⟩ := (Item.fits_singleton hx).mp hfits
                rwa [(List.cons.inj hw).2]
              · rw [hon]
                refine ⟨False.elim, ?_⟩
                rintro ⟨w, u, hw, hfits, -⟩
                obtain ⟨d, rfl, hd⟩ := (Item.fits_singleton hx).mp hfits
                rw [← (List.cons.inj hw).1, hon] at hd
                cases hd

end KivaDb.PubSub
