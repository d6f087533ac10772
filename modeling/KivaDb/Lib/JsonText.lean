import KivaDb.Lib.LittleEndian
import Mathlib.Data.List.Chain

namespace KivaDb.Lib.JsonText

open LittleEndian

def quote : UInt8 := 0x22

def backslash : UInt8 := 0x5c

def isDigit (b : UInt8) : Bool := 0x30 ≤ b && b ≤ 0x39

def isHex (b : UInt8) : Bool := isDigit b || (0x41 ≤ b && b ≤ 0x46) || (0x61 ≤ b && b ≤ 0x66)

def digitsOf (ds : Bytes) : Nat := ds.foldl (fun n b => n * 10 + (b.toNat - 48)) 0

/-- A number as it is written. -/
structure Numeral where
  negative : Bool
  whole : Bytes
  fraction : Option Bytes
  /-- `e` or `E`, the sign where there is one, the digits. -/
  exponent : Option (UInt8 × Option UInt8 × Bytes)
  whole_ne : whole ≠ []
  whole_digits : ∀ b ∈ whole, isDigit b = true
  no_zero : whole.head? = some 0x30 → whole = [0x30]
  fraction_digits : ∀ f ∈ fraction, f ≠ [] ∧ ∀ b ∈ f, isDigit b = true
  exponent_digits : ∀ e ∈ exponent, (e.1 = 0x65 ∨ e.1 = 0x45) ∧ (∀ s ∈ e.2.1, s = 0x2b ∨ s = 0x2d) ∧
    e.2.2 ≠ [] ∧ ∀ b ∈ e.2.2, isDigit b = true

namespace Numeral

variable (n : Numeral)

def sign : Bytes := if n.negative then [0x2d] else []

def fractionText : Bytes := n.fraction.elim [] (0x2e :: ·)

def exponentText : Bytes := n.exponent.elim [] fun e => e.1 :: (e.2.1.toList ++ e.2.2)

def text : Bytes := n.sign ++ n.whole ++ n.fractionText ++ n.exponentText

/-- Without fraction and exponent. -/
def IsInteger : Prop := n.fraction = none ∧ n.exponent = none

def integer : Int := if n.negative then -digitsOf n.whole else digitsOf n.whole

end Numeral

/-- A character of a string, or what stands for one. -/
inductive Piece
  | plain (b : UInt8) (dark : 0x20 ≤ b) (not_quote : b ≠ quote) (not_backslash : b ≠ backslash)
  | escaped (b : UInt8) (known : b ∈ [quote, backslash, 0x2f, 0x62, 0x66, 0x6e, 0x72, 0x74])
  | unicode (a b c d : UInt8) (hex : isHex a ∧ isHex b ∧ isHex c ∧ isHex d)

def Piece.text : Piece → Bytes
  | plain b _ _ _ => [b]
  | escaped b _ => [backslash, b]
  | unicode a b c d _ => [backslash, 0x75, a, b, c, d]

inductive Mark
  | openArray
  | closeArray
  | openObject
  | closeObject
  | comma
  | colon

def Mark.byte : Mark → UInt8
  | openArray => 0x5b
  | closeArray => 0x5d
  | openObject => 0x7b
  | closeObject => 0x7d
  | comma => 0x2c
  | colon => 0x3a

inductive Word
  | null
  | true
  | false

def Word.text : Word → Bytes
  | null => [0x6e, 0x75, 0x6c, 0x6c]
  | true => [0x74, 0x72, 0x75, 0x65]
  | false => [0x66, 0x61, 0x6c, 0x73, 0x65]

inductive Blank
  | space
  | tab
  | newline
  | return

def Blank.byte : Blank → UInt8
  | space => 0x20
  | tab => 0x09
  | newline => 0x0a
  | .return => 0x0d

inductive Lexeme
  | mark (m : Mark)
  | word (w : Word)
  | number (n : Numeral)
  | string (ps : List Piece)
  | blank (b : Blank)

namespace Lexeme

def text : Lexeme → Bytes
  | mark m => [m.byte]
  | word w => w.text
  | number n => n.text
  | string ps => quote :: (ps.flatMap Piece.text ++ [quote])
  | blank b => [b.byte]

def IsNumber : Lexeme → Prop
  | number _ => True
  | _ => False

end Lexeme

def textOf (ls : List Lexeme) : Bytes := ls.flatMap Lexeme.text

def Blanks (ls : List Lexeme) : Prop := ∀ l ∈ ls, ∃ b, l = .blank b

mutual

inductive IsValue : List Lexeme → Prop
  | word (w : Word) : IsValue [.word w]
  | number (n : Numeral) : IsValue [.number n]
  | string (ps : List Piece) : IsValue [.string ps]
  | emptyArray {ws : List Lexeme} : Blanks ws → IsValue (.mark .openArray :: (ws ++ [.mark .closeArray]))
  | array {ls : List Lexeme} : IsItems ls → IsValue (.mark .openArray :: (ls ++ [.mark .closeArray]))
  | emptyObject {ws : List Lexeme} : Blanks ws → IsValue (.mark .openObject :: (ws ++ [.mark .closeObject]))
  | object {ls : List Lexeme} : IsMembers ls → IsValue (.mark .openObject :: (ls ++ [.mark .closeObject]))

/-- A value with white space around it. -/
inductive IsElement : List Lexeme → Prop
  | mk {before v after : List Lexeme} : Blanks before → IsValue v → Blanks after → IsElement (before ++ (v ++ after))

inductive IsItems : List Lexeme → Prop
  | one {ls : List Lexeme} : IsElement ls → IsItems ls
  | more {ls ms : List Lexeme} : IsElement ls → IsItems ms → IsItems (ls ++ .mark .comma :: ms)

inductive IsMember : List Lexeme → Prop
  | mk {before after v : List Lexeme} (name : List Piece) : Blanks before → Blanks after → IsElement v →
      IsMember (before ++ .string name :: (after ++ .mark .colon :: v))

inductive IsMembers : List Lexeme → Prop
  | one {ls : List Lexeme} : IsMember ls → IsMembers ls
  | more {ls ms : List Lexeme} : IsMember ls → IsMembers ms → IsMembers (ls ++ .mark .comma :: ms)

end

/-- The texts that RFC 8259 takes, cut into their lexemes. -/
abbrev IsText (ls : List Lexeme) : Prop := IsElement ls

/-- No number stands right after another. -/
def Apart (a b : Lexeme) : Prop := ¬ (a.IsNumber ∧ b.IsNumber)

theorem Apart.left {a : Lexeme} (h : ¬ a.IsNumber) (b : Lexeme) : Apart a b := fun hab => h hab.1

theorem Apart.right {b : Lexeme} (h : ¬ b.IsNumber) (a : Lexeme) : Apart a b := fun hab => h hab.2

theorem isChain_join {ls ms : List Lexeme} {m : Lexeme} (hm : ¬ m.IsNumber) (hl : ls.IsChain Apart) (hr : ms.IsChain Apart) :
    (ls ++ m :: ms).IsChain Apart := by
  rw [List.isChain_append, List.isChain_cons]
  refine ⟨hl, ⟨fun b _ => .left hm b, hr⟩, fun a _ b hb => ?_⟩
  rw [← Option.some.inj hb]
  exact .right hm a

theorem isChain_cons {ms : List Lexeme} {m : Lexeme} (hm : ¬ m.IsNumber) (hr : ms.IsChain Apart) : (m :: ms).IsChain Apart :=
  List.isChain_cons.mpr ⟨fun b _ => .left hm b, hr⟩

theorem isChain_blanks {ws ls : List Lexeme} (hw : Blanks ws) (h : ls.IsChain Apart) : (ws ++ ls).IsChain Apart := by
  induction ws with
  | nil => exact h
  | cons w ws ih =>
      obtain ⟨hw, hws⟩ := List.forall_mem_cons.mp hw
      obtain ⟨b, rfl⟩ := hw
      exact isChain_cons id (ih hws)

theorem isChain_of_blanks {ws : List Lexeme} (hw : Blanks ws) : ws.IsChain Apart := by
  rw [← List.append_nil ws]
  exact isChain_blanks hw .nil

theorem isChain_append_blanks {ws ls : List Lexeme} (h : ls.IsChain Apart) (hw : Blanks ws) : (ls ++ ws).IsChain Apart := by
  cases ws with
  | nil => rwa [List.append_nil]
  | cons w ws =>
      obtain ⟨⟨b, rfl⟩, hws⟩ := List.forall_mem_cons.mp hw
      exact isChain_join id h (isChain_of_blanks hws)

theorem isChain_enclosed {ls : List Lexeme} (o c : Mark) (h : ls.IsChain Apart) :
    (.mark o :: (ls ++ [.mark c]) : List Lexeme).IsChain Apart :=
  isChain_cons id (isChain_join id h .nil)

mutual

theorem IsValue.apart {ls : List Lexeme} : IsValue ls → ls.IsChain Apart
  | .word w => List.isChain_singleton _
  | .number n => List.isChain_singleton _
  | .string ps => List.isChain_singleton _
  | .emptyArray hw => isChain_enclosed _ _ (isChain_of_blanks hw)
  | .array h => isChain_enclosed _ _ h.apart
  | .emptyObject hw => isChain_enclosed _ _ (isChain_of_blanks hw)
  | .object h => isChain_enclosed _ _ h.apart

theorem IsElement.apart {ls : List Lexeme} : IsElement ls → ls.IsChain Apart
  | .mk hb hv ha => isChain_blanks hb (isChain_append_blanks hv.apart ha)

theorem IsItems.apart {ls : List Lexeme} : IsItems ls → ls.IsChain Apart
  | .one h => h.apart
  | .more h hs => isChain_join id h.apart hs.apart

theorem IsMember.apart {ls : List Lexeme} : IsMember ls → ls.IsChain Apart
  | .mk _ hb ha hv => isChain_blanks hb (isChain_cons id (isChain_blanks ha (isChain_cons id hv.apart)))

theorem IsMembers.apart {ls : List Lexeme} : IsMembers ls → ls.IsChain Apart
  | .one h => h.apart
  | .more h hs => isChain_join id h.apart hs.apart

end

end KivaDb.Lib.JsonText
