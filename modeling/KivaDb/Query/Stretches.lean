import KivaDb.Query.Language

namespace KivaDb.Query

open Lexer
open JsonPath (isWhitespace)

/-- What tokens are to a reader: their kinds and texts. -/
def spelled (ts : List Token) : List (Kind × String) := ts.map fun t => (t.kind, t.text)

theorem spelled_append (ts us : List Token) : spelled (ts ++ us) = spelled ts ++ spelled us := List.map_append

theorem length_spelled (ts : List Token) : (spelled ts).length = ts.length := List.length_map _

theorem spelled_nil {ts : List Token} (h : spelled ts = []) : ts = [] := List.map_eq_nil_iff.mp h

theorem spelled_cons {ts : List Token} {kind : Kind} {text : String} {ws : List (Kind × String)}
    (h : spelled ts = (kind, text) :: ws) : ∃ t us, ts = t :: us ∧ t.kind = kind ∧ t.text = text ∧ spelled us = ws := by
  obtain ⟨t, us, rfl, ht, hus⟩ := List.map_eq_cons_iff.mp h
  exact ⟨t, us, rfl, congrArg Prod.fst ht, congrArg Prod.snd ht, hus⟩

/-- A stretch of a text that the scanner takes as a whole. -/
inductive Stretch
  | word (w : List Char)
  | quoted (s : List Char)
  | literal (s : List Char)
  | opening
  | closing
  | space

/-- A character that a word goes on with. -/
def isWordChar (c : Char) : Bool := !isQuote c && (separator c).isNone && !isWhitespace c

/-- The text of a literal after its bracket, in a string or not, to where no string is open. -/
def staysInside : Bool → List Char → Bool
  | inStr, [] => !inStr
  | true, c :: cs => c ≠ '\\' && staysInside (c != '"') cs
  | false, c :: cs => !isOpening c && !isClosing c && staysInside (c = '"') cs

namespace Stretch

def text : Stretch → List Char
  | word w => w
  | quoted s => '"' :: (s ++ ['"'])
  | literal s => '[' :: (s ++ [']'])
  | opening => ['(']
  | closing => [')']
  | space => [' ']

def token : Stretch → List (Kind × String)
  | word w => [(.bare, String.ofList w)]
  | quoted s => [(.dQuote, String.ofList s)]
  | literal s => [(.json, String.ofList ('[' :: (s ++ [']'])))]
  | opening => [(.lParen, "(")]
  | closing => [(.rParen, ")")]
  | space => []

def textOf (ss : List Stretch) : List Char := ss.flatMap text

def tokensOf (ss : List Stretch) : List (Kind × String) := ss.flatMap token

def isWord : Stretch → Bool
  | word _ => true
  | _ => false

/-- Where the stretch may stand: after a word, or only elsewhere. -/
def Fits (inWord : Bool) : Stretch → Prop
  | word w => inWord = false ∧ w ≠ [] ∧ w.head?.all (!isOpening ·) ∧ w.all isWordChar
  | quoted s => '"' ∉ s
  | literal s => inWord = false ∧ staysInside false s
  | opening | closing | space => True

def AllFit : Bool → List Stretch → Prop
  | _, [] => True
  | inWord, s :: ss => s.Fits inWord ∧ AllFit s.isWord ss

theorem textOf_append (ss ts : List Stretch) : textOf (ss ++ ts) = textOf ss ++ textOf ts := List.flatMap_append

theorem tokensOf_append (ss ts : List Stretch) : tokensOf (ss ++ ts) = tokensOf ss ++ tokensOf ts := List.flatMap_append

/-- What may stand anywhere keeps two texts apart. -/
theorem allFit_join {inWord : Bool} {ss ts : List Stretch} {s : Stretch} (hs : ∀ b, s.Fits b) (hw : s.isWord = false)
    (hss : AllFit inWord ss) (hts : AllFit false ts) : AllFit inWord (ss ++ s :: ts) := by
  induction ss generalizing inWord with
  | nil =>
      refine ⟨hs inWord, ?_⟩
      rwa [hw]
  | cons r ss ih => exact ⟨hss.1, ih hss.2⟩

end Stretch

/-- The scanner has read these tokens, and is in a word or between tokens. -/
structure Read (s : Scan) (ws : List (Kind × String)) (inWord : Bool) : Prop where
  mode : s.mode = .word
  spelled : spelled s.flush.tokens = ws
  current : inWord = false → s.current = []

variable {s : Scan} {ws : List (Kind × String)} {inWord : Bool}

namespace Read

theorem init : Read .init [] false := ⟨rfl, rfl, fun _ => rfl⟩

theorem flush_current (s : Scan) : s.flush.current = [] := by
  rw [Scan.flush]
  split
  · next h => exact List.isEmpty_iff.mp h
  · rfl

theorem flush_mode (s : Scan) : s.flush.mode = s.mode := by
  rw [Scan.flush]
  split <;> rfl

theorem of_tokens {s' : Scan} (hmode : s'.mode = .word) (hcurrent : s'.current = []) (h : Query.spelled s'.tokens = ws) :
    Read s' ws false := by
  refine ⟨hmode, ?_, fun _ => hcurrent⟩
  rw [Scan.flush, hcurrent]
  exact h

theorem tokens (h : Read s ws false) : Query.spelled s.tokens = ws := by
  rw [← h.spelled, Scan.flush, h.current rfl]
  rfl

theorem step_eq (h : Read s ws inWord) (c : Char) : step s c = wordStep s c := by
  rw [step, h.mode]

/-- White space ends a word. -/
theorem space (h : Read s ws inWord) : Read (step s ' ') ws false := by
  rw [h.step_eq]
  exact of_tokens ((flush_mode s).trans h.mode) (flush_current s) h.spelled

theorem bracket (h : Read s ws inWord) {c : Char} {kind : Kind} (hc : isQuote c = false) (ho : isOpening c = false)
    (hsep : separator c = some kind) : Read (step s c) (ws ++ [(kind, String.ofList [c])]) false := by
  have hstep : wordStep s c = { s.flush.push ⟨String.ofList [c], kind, s.pos, s.pos + 1⟩ with pos := s.pos + c.utf8Size } := by
    simp [wordStep, hc, ho, hsep]
  rw [h.step_eq, hstep]
  refine of_tokens ((flush_mode s).trans h.mode) (flush_current s) ?_
  rw [← h.spelled, Scan.push, spelled_append]
  rfl

end Read

/-- A word is read to its end. -/
theorem scan_word {w : List Char} (hmode : s.mode = .word) (hhead : s.current = [] → w.head?.all (!isOpening ·))
    (h : w.all isWordChar) : (w.foldl step s).mode = .word ∧ (w.foldl step s).tokens = s.tokens ∧
      (w.foldl step s).current = s.current ++ w := by
  induction w generalizing s with
  | nil => exact ⟨hmode, rfl, (List.append_nil _).symm⟩
  | cons c w ih =>
      rw [List.all_cons, Bool.and_eq_true, isWordChar, Bool.and_eq_true, Bool.and_eq_true] at h
      obtain ⟨⟨⟨hquote, hsep⟩, hspace⟩, hw⟩ := h
      have hopen : ¬ (isOpening c = true ∧ s.current.isEmpty = true) := by
        rintro ⟨hc, hempty⟩
        have hall := hhead (List.isEmpty_iff.mp hempty)
        rw [List.head?_cons, Option.all_some, hc] at hall
        exact nomatch hall
      have hstep : step s c = { s with
          pos := s.pos + c.utf8Size, current := s.current ++ [c]
          curStart := if s.current.isEmpty then s.pos else s.curStart } := by
        rw [step, hmode]
        dsimp only
        rw [wordStep, if_neg (by simpa using hquote), if_neg hopen, Option.isNone_iff_eq_none.mp hsep,
          (Bool.not_eq_true' _).mp hspace, ← hmode]
        rfl
      rw [List.foldl_cons, hstep]
      have hgo := ih (s := { s with
        pos := s.pos + c.utf8Size, current := s.current ++ [c]
        curStart := if s.current.isEmpty then s.pos else s.curStart }) hmode (fun hnil => absurd hnil (by simp)) hw
      exact ⟨hgo.1, hgo.2.1, hgo.2.2.trans (List.append_assoc _ _ _)⟩

theorem scan_quote {q : Char} {start : Nat} {text l : List Char} (hmode : s.mode = .quote q start text) (h : q ∉ l) :
    (l.foldl step s).mode = .quote q start (text ++ l) ∧ (l.foldl step s).tokens = s.tokens ∧
      (l.foldl step s).current = s.current := by
  induction l generalizing s text with
  | nil => exact ⟨by rwa [List.append_nil], rfl, rfl⟩
  | cons c l ih =>
      rw [List.mem_cons, not_or] at h
      have hstep : step s c = { s with pos := s.pos + c.utf8Size, mode := .quote q start (text ++ [c]) } := by
        rw [step, hmode]
        exact if_neg (Ne.symm h.1)
      rw [List.foldl_cons, hstep]
      have hgo := ih (s := { s with pos := s.pos + c.utf8Size, mode := .quote q start (text ++ [c]) }) rfl h.2
      rwa [List.append_assoc] at hgo

/-- A literal is read on as long as no bracket outside its strings ends it. -/
theorem scan_literal {o : Char} {start : Nat} {text l : List Char} {inStr : Bool}
    (hmode : s.mode = .literal o start text 1 inStr false) (h : staysInside inStr l) :
    (l.foldl step s).mode = .literal o start (text ++ l) 1 false false ∧ (l.foldl step s).tokens = s.tokens ∧
      (l.foldl step s).current = s.current := by
  induction l generalizing s text inStr with
  | nil =>
      rw [staysInside, Bool.not_eq_true'] at h
      rw [h] at hmode
      exact ⟨by rwa [List.append_nil], rfl, rfl⟩
  | cons c l ih =>
      have hstep : ∃ inStr', step s c = { s with pos := s.pos + c.utf8Size, mode := .literal o start (text ++ [c]) 1 inStr' false } ∧
          staysInside inStr' l := by
        rw [step, hmode]
        dsimp only
        rw [literalStep]
        cases inStr with
        | true =>
            rw [staysInside, Bool.and_eq_true, decide_eq_true_eq] at h
            refine ⟨c != '"', ?_, h.2⟩
            rw [if_pos rfl, if_neg Bool.false_ne_true, if_neg h.1]
        | false =>
            rw [staysInside, Bool.and_eq_true, Bool.and_eq_true, Bool.not_eq_true', Bool.not_eq_true'] at h
            refine ⟨c = '"', ?_, h.2⟩
            rw [if_neg Bool.false_ne_true]
            by_cases hc : c = '"'
            · rw [if_pos hc, decide_eq_true hc]
            · rw [if_neg hc, h.1.1, if_neg Bool.false_ne_true, h.1.2, if_neg Bool.false_ne_true, decide_eq_false hc]
      obtain ⟨inStr', hstep, hin⟩ := hstep
      rw [List.foldl_cons, hstep]
      have hgo := ih (s := { s with pos := s.pos + c.utf8Size, mode := .literal o start (text ++ [c]) 1 inStr' false }) rfl hin
      rwa [List.append_assoc] at hgo

namespace Read

theorem word (h : Read s ws false) {w : List Char} (hfits : (Stretch.word w).Fits false) :
    Read (w.foldl step s) (ws ++ [(.bare, String.ofList w)]) true := by
  obtain ⟨-, hne, hhead, hall⟩ := hfits
  obtain ⟨hmode, htokens, hcurrent⟩ := scan_word h.mode (fun _ => hhead) hall
  rw [h.current rfl, List.nil_append] at hcurrent
  refine ⟨hmode, ?_, nofun⟩
  rw [Scan.flush, if_neg (by rw [hcurrent, List.isEmpty_iff]; exact hne), spelled_append, htokens, h.tokens, hcurrent]
  rfl

theorem quoted (h : Read s ws inWord) {l : List Char} (hl : '"' ∉ l) :
    Read ((Stretch.quoted l).text.foldl step s) (ws ++ [(.dQuote, String.ofList l)]) false := by
  have hopen : step s '"' = { s.flush with pos := s.pos + '"'.utf8Size, mode := .quote '"' s.pos [] } := by
    rw [h.step_eq]
    rfl
  rw [Stretch.text, List.foldl_cons, List.foldl_append, hopen]
  obtain ⟨hmode, htokens, hcurrent⟩ :=
    scan_quote (s := { s.flush with pos := s.pos + '"'.utf8Size, mode := .quote '"' s.pos [] }) rfl hl
  generalize l.foldl step _ = s' at hmode htokens hcurrent
  have hclose : step s' '"' =
      { s'.push ⟨String.ofList l, .dQuote, s.pos, s'.pos + 1⟩ with pos := s'.pos + '"'.utf8Size, mode := .word } := by
    rw [step, hmode]
    rfl
  rw [List.foldl_cons, List.foldl_nil, hclose]
  refine of_tokens rfl (hcurrent.trans (flush_current s)) ?_
  rw [Scan.push, spelled_append, htokens, h.spelled]
  rfl

theorem literal (h : Read s ws false) {l : List Char} (hl : staysInside false l) :
    Read ((Stretch.literal l).text.foldl step s) (ws ++ (Stretch.literal l).token) false := by
  have hopen : step s '[' = { s with pos := s.pos + '['.utf8Size, mode := .literal '[' s.pos ['['] 1 false false } := by
    rw [h.step_eq, wordStep, h.current rfl]
    rfl
  rw [Stretch.text, List.foldl_cons, List.foldl_append, hopen]
  obtain ⟨hmode, htokens, hcurrent⟩ :=
    scan_literal (s := { s with pos := s.pos + '['.utf8Size, mode := .literal '[' s.pos ['['] 1 false false }) rfl hl
  generalize l.foldl step _ = s' at hmode htokens hcurrent
  have hclose : step s' ']' = { s'.push ⟨String.ofList ('[' :: (l ++ [']'])), .json, s.pos, s'.pos + ']'.utf8Size⟩ with
      pos := s'.pos + ']'.utf8Size, mode := .word } := by
    rw [step, hmode]
    rfl
  rw [List.foldl_cons, List.foldl_nil, hclose]
  refine of_tokens rfl (hcurrent.trans (h.current rfl)) ?_
  rw [Scan.push, spelled_append, htokens, h.tokens]
  rfl

end Read

end KivaDb.Query
