import KivaDb.Cond
import KivaDb.Lib.Greedy

namespace KivaDb.Like

open Lib.Greedy

/-- What an element of a pattern does with a character of the text. -/
def on (x : LikePart) (c : Char) : Verdict :=
  match x with
  | .any => .run
  | .one => .take
  | .char d => if d = c then .take else .stop

def isAny : LikePart → Bool
  | .any => true
  | _ => false

/-- The characters of a pattern before its first wildcard. -/
def literal : List LikePart → List Char
  | .char c :: p => c :: literal p
  | _ => []

def likePrefix (pattern : String) : String := String.ofList (literal (likeParts pattern.toList))

/-- Trying again from the last `%`, with the character it stood before given to it. -/
def back (fuel : Nat) (last : Option (List LikePart × List Char)) : Bool :=
  last.elim false fun l => likeLoop fuel l.1 l.2.tail (some (l.1, l.2.tail))

/-- The runs of characters that an element of a pattern stands for. -/
def Fits : LikePart → List Char → Prop
  | .any, _ => True
  | .one, w => ∃ c, w = [c]
  | .char c, w => w = [c]

/-- The text split along the pattern, each element given what it stands for. -/
def Matches (p : List LikePart) (t : List Char) : Prop := ∃ ws, List.Forall₂ Fits p ws ∧ ws.flatten = t

theorem matches_cons {x : LikePart} {p : List LikePart} {t : List Char} :
    Matches (x :: p) t ↔ ∃ w u, t = w ++ u ∧ Fits x w ∧ Matches p u := by
  constructor
  · rintro ⟨_, hfits, rfl⟩
    cases hfits with
    | @cons _ w _ ws hx hfits => exact ⟨w, ws.flatten, rfl, hx, ws, hfits, rfl⟩
  · rintro ⟨w, _, rfl, hx, ws, hfits, rfl⟩
    exact ⟨w :: ws, .cons hx hfits, rfl⟩

theorem reads_iff (p : List LikePart) (t : List Char) : Reads on isAny p t ↔ Matches p t := by
  induction p generalizing t with
  | nil =>
      rw [Reads]
      constructor
      · rintro rfl
        exact ⟨[], .nil, rfl⟩
      · rintro ⟨_, hfits, rfl⟩
        cases hfits
        rfl
  | cons x p ih =>
      rw [matches_cons]
      cases t with
      | nil =>
          rw [Reads, ih]
          constructor
          · rintro ⟨hx, hrest⟩
            cases x with
            | any => exact ⟨[], [], rfl, trivial, hrest⟩
            | _ => cases hx
          · rintro ⟨w, u, h, hx, hrest⟩
            obtain ⟨rfl, rfl⟩ := List.append_eq_nil_iff.mp h.symm
            cases x with
            | any => exact ⟨rfl, hrest⟩
            | one =>
                obtain ⟨c, hc⟩ := hx
                cases hc
            | char c => cases hx
      | cons c t =>
          cases x with
          | any =>
              rw [Reads]
              simp only [on, ih]
              constructor
              · rintro ⟨u, ⟨w, hw⟩, hrest⟩
                exact ⟨w, u, hw.symm, trivial, hrest⟩
              · rintro ⟨w, u, hw, -, hrest⟩
                exact ⟨u, ⟨w, hw.symm⟩, hrest⟩
          | one =>
              rw [Reads]
              simp only [on, ih]
              constructor
              · intro hrest
                exact ⟨[c], t, rfl, ⟨c, rfl⟩, hrest⟩
              · rintro ⟨_, u, h, ⟨d, rfl⟩, hrest⟩
                rwa [(List.cons.inj h).2]
          | char d =>
              rw [Reads]
              simp only [on]
              by_cases hd : d = c
              · rw [if_pos hd, ih]
                constructor
                · intro hrest
                  exact ⟨[c], t, rfl, congrArg (fun x => [x]) hd.symm, hrest⟩
                · rintro ⟨_, u, h, rfl, hrest⟩
                  rwa [(List.cons.inj h).2]
              · rw [if_neg hd]
                refine ⟨False.elim, ?_⟩
                rintro ⟨_, u, h, rfl, -⟩
                exact hd (List.cons.inj h).1.symm

/-- A text that matches starts with what stands before the first wildcard. -/
theorem literal_prefix {p : List LikePart} {t : List Char} (h : Matches p t) : literal p <+: t := by
  induction p generalizing t with
  | nil => exact List.nil_prefix
  | cons x p ih =>
      cases x with
      | char c =>
          obtain ⟨_, u, rfl, rfl, hrest⟩ := matches_cons.mp h
          exact (List.prefix_cons_inj c).mpr (ih hrest)
      | _ => exact List.nil_prefix

variable [Chrono] [Codec]

end KivaDb.Like
