import KivaDb.Config
import KivaDb.Shell.Lexer

namespace KivaDb.Kva

open JsonPath (isWhitespace)
open Lexer (isQuote isOpening isClosing)

/-- What `is_open` keeps of the text before a character. -/
structure Open where
  depth : Nat
  quote : Option Char
  inJsonString : Bool
  escaped : Bool
  wordStart : Bool
  deriving DecidableEq, Repr

namespace Open

def init : Open := ⟨0, none, false, false, true⟩

def jsonStep (s : Open) (c : Char) : Open :=
  if s.inJsonString then
    if s.escaped then { s with escaped := false }
    else if c = '\\' then { s with escaped := true }
    else { s with inJsonString := c != '"' }
  else
    let s :=
      if c = '"' then { s with inJsonString := true }
      else if isOpening c then { s with depth := s.depth + 1 }
      else if isClosing c then { s with depth := s.depth - 1 }
      else s
    if s.depth = 0 then { s with wordStart := false } else s

def textStep (s : Open) (c : Char) : Open :=
  if isQuote c then { s with quote := some c, wordStart := false }
  else if isOpening c ∧ s.wordStart then { s with depth := 1, wordStart := false }
  else if isWhitespace c ∨ c = ',' ∨ c = '(' ∨ c = ')' then { s with wordStart := true }
  else { s with wordStart := false }

def step (s : Open) (c : Char) : Open :=
  if 0 < s.depth then s.jsonStep c
  else
    match s.quote with
    | some q => if c = q then { s with quote := none } else s
    | none => s.textStep c

end Open

def scan (text : List Char) : Open := text.foldl Open.step .init

/-- Whether `text` opened a JSON document that is not closed yet: the command continues on
the next line. -/
def isOpen (text : List Char) : Bool := 0 < (scan text).depth

/-- One command of a file, with the line where it starts, from 1. -/
structure Statement where
  line : Nat
  text : List Char

def isComment (line : List Char) : Bool :=
  match line.dropWhile isWhitespace with
  | '#' :: _ => true
  | '-' :: '-' :: _ => true
  | _ => false

def trimEnd (p : Char → Bool) (s : List Char) : List Char := (s.reverse.dropWhile p).reverse

/-- The commands that are closed so far, and the one that is open. -/
structure Split where
  out : List Statement
  pending : Option Statement

/-- What a line adds to the open command, or starts: nothing where it is blank or a comment. -/
def Split.add (s : Split) (i : Nat) (raw : List Char) : Option Statement :=
  let line := trimEnd (· = '\r') raw
  match s.pending with
  | some p => some { p with text := p.text ++ '\n' :: line }
  | none =>
      if (JsonPath.trim line).isEmpty ∨ isComment line then none else some ⟨i + 1, line.dropWhile isWhitespace⟩

def Split.take (s : Split) (i : Nat) (raw : List Char) : Split :=
  match s.add i raw with
  | none => s
  | some p => if isOpen p.text then ⟨s.out, some p⟩ else ⟨s.out ++ [p], none⟩

def splitLoop : Nat → List (List Char) → Split → Split
  | _, [], s => s
  | i, raw :: lines, s => splitLoop (i + 1) lines (s.take i raw)

def commands (source : List Char) : Split := splitLoop 0 (Config.lines source) ⟨[], none⟩

/-- A text into commands; one that is still open at the end is an error, with the line where
it started. -/
def split (source : List Char) : Except (Nat × String) (List Statement) :=
  match (commands source).pending with
  | some p => .error (p.line, "this command opens a \x7b or [ that is never closed")
  | none => .ok (commands source).out

end KivaDb.Kva

namespace KivaDb.Kva

open JsonPath (isWhitespace)
open Lexer (Token Mode Scan Kind isQuote isOpening isClosing unclosedBracket tokenize)

/-- The lexer stops inside a literal. -/
def Unclosed (text : List Char) : Prop := ∃ c, tokenize text = .error (unclosedBracket c)

/-- `is_open` says what the lexer does. -/
def Agrees (text : List Char) : Prop := isOpen text = true ↔ Unclosed text

def closers : List Kind := [.dQuote, .sQuote, .backtick, .json]

def byteLen (text : List Char) : Nat := (text.map Char.utf8Size).sum

/-- A text that ends where a quoted text or a literal of the lexer ends. -/
def Closed (text : List Char) : Prop :=
  ∃ tokens t, tokenize text = .ok (tokens ++ [t]) ∧ t.stop = byteLen text ∧ t.kind ∈ closers

/-- No opening bracket stands where a quoted text or a literal ends. -/
def Separated (text : List Char) : Prop := ∀ p c r, text = p ++ c :: r → isOpening c = true → ¬ Closed p

/-- The last token is a quoted text or a literal, and ends where the scanner is. -/
def Glued (s : Scan) : Prop := s.current = [] ∧ ∃ t ∈ s.tokens.getLast?, t.stop = s.pos ∧ t.kind ∈ closers

/-- Where `is_open` is when the lexer is in a mode. -/
def At (s : Scan) (o : Open) : Mode → Prop
  | .word => o = ⟨0, none, false, false, o.wordStart⟩ ∧ (o.wordStart = true ↔ s.current = [] ∧ ¬ Glued s)
  | .quote q _ _ => o = ⟨0, some q, false, false, false⟩ ∧ isQuote q = true ∧ s.current = []
  | .literal _ _ _ depth inStr escaped =>
      o = ⟨depth, none, inStr, escaped, false⟩ ∧ 0 < depth ∧ (inStr = false → escaped = false) ∧ s.current = []

/-- The two scanners are at the same place. -/
structure Same (s : Scan) (o : Open) : Prop where
  behind : ∀ t ∈ s.tokens.getLast?, t.stop ≤ s.pos
  place : At s o s.mode

variable {s : Scan} {o : Open} {c : Char}

theorem one_le_utf8Size (c : Char) : 1 ≤ c.utf8Size := c.utf8Size_pos

@[simp] theorem flush_current (s : Scan) : s.flush.current = [] := by
  unfold Scan.flush
  split
  · next h => exact List.isEmpty_iff.mp h
  · rfl

@[simp] theorem flush_pos (s : Scan) : s.flush.pos = s.pos := by
  unfold Scan.flush
  split <;> rfl

@[simp] theorem flush_mode (s : Scan) : s.flush.mode = s.mode := by
  unfold Scan.flush
  split <;> rfl

theorem flush_behind (h : ∀ t ∈ s.tokens.getLast?, t.stop ≤ s.pos) :
    ∀ t ∈ s.flush.tokens.getLast?, t.stop ≤ s.pos := by
  unfold Scan.flush
  split
  · exact h
  · intro t ht
    rw [List.getLast?_concat, Option.mem_some_iff] at ht
    rw [← ht]

theorem utf8Size_quote (h : isQuote c = true) : c.utf8Size = 1 := by
  simp only [isQuote, Bool.or_eq_true, decide_eq_true_iff] at h
  obtain (rfl | rfl) | rfl := h <;> rfl

theorem quoteKind_mem (q : Char) : Lexer.quoteKind q ∈ closers := by
  unfold Lexer.quoteKind
  split
  · exact .head _
  · split
    · exact .tail _ (.head _)
    · exact .tail _ (.tail _ (.head _))

theorem separator_not_mem {k : Kind} (h : Lexer.separator c = some k) : k ∉ closers := by
  unfold Lexer.separator at h
  split at h
  · rw [← Option.some.inj h]
    decide
  · split at h
    · rw [← Option.some.inj h]
      decide
    · split at h
      · rw [← Option.some.inj h]
        decide
      · exact nomatch h

theorem opening_plain (h : isOpening c = true) :
    isQuote c = false ∧ Lexer.separator c = none ∧ isWhitespace c = false ∧ ¬ (c = ',' ∨ c = '(' ∨ c = ')') := by
  simp only [isOpening, Bool.or_eq_true, decide_eq_true_iff] at h
  obtain rfl | rfl := h <;> decide

theorem separator_isSome : (Lexer.separator c).isSome = true ↔ c = ',' ∨ c = '(' ∨ c = ')' := by
  unfold Lexer.separator
  split
  · simp_all
  · split
    · simp_all
    · split
      · simp_all
      · simp_all

theorem Same.ofWord {w : Bool} (hm : s.mode = .word) (hb : ∀ t ∈ s.tokens.getLast?, t.stop ≤ s.pos)
    (hw : w = true ↔ s.current = [] ∧ ¬ Glued s) : Same s ⟨0, none, false, false, w⟩ := by
  refine ⟨hb, ?_⟩
  rw [hm]
  exact ⟨rfl, hw⟩

theorem Same.ofQuote {q : Char} {start : Nat} {text : List Char} (hm : s.mode = .quote q start text)
    (hb : ∀ t ∈ s.tokens.getLast?, t.stop ≤ s.pos) (hq : isQuote q = true) (hc : s.current = []) :
    Same s ⟨0, some q, false, false, false⟩ := by
  refine ⟨hb, ?_⟩
  rw [hm]
  exact ⟨rfl, hq, hc⟩

theorem Same.ofLiteral {opening : Char} {start depth : Nat} {text : List Char} {inStr escaped : Bool}
    (hm : s.mode = .literal opening start text depth inStr escaped) (hb : ∀ t ∈ s.tokens.getLast?, t.stop ≤ s.pos)
    (hd : 0 < depth) (he : inStr = false → escaped = false) (hc : s.current = []) :
    Same s ⟨depth, none, inStr, escaped, false⟩ := by
  refine ⟨hb, ?_⟩
  rw [hm]
  exact ⟨rfl, hd, he, hc⟩

theorem last_push (s : Scan) (t : Token) : (s.push t).tokens.getLast? = some t := List.getLast?_concat

theorem eq_of_last_push {t u : Token} (h : u ∈ (s.push t).tokens.getLast?) : u = t := by
  rw [last_push, Option.mem_some_iff] at h
  exact h.symm

theorem wordStep_same {w : Bool} (h : Same s ⟨0, none, false, false, w⟩) (hm : s.mode = .word)
    (hglued : isOpening c = true → ¬ Glued s) :
    Same (Lexer.wordStep s c) (Open.textStep ⟨0, none, false, false, w⟩ c) := by
  have hplace := h.place
  rw [hm] at hplace
  have hstart : w = true ↔ s.current = [] ∧ ¬ Glued s := hplace.2
  have hmode : s.flush.mode = .word := (flush_mode s).trans hm
  have hsize := one_le_utf8Size c
  have hbehind {t : Token} (ht : t ∈ s.tokens.getLast?) : t.stop ≤ s.pos + c.utf8Size :=
    Nat.le_trans (h.behind t ht) (Nat.le_add_right _ _)
  have hflushed {t : Token} (ht : t ∈ s.flush.tokens.getLast?) : t.stop ≤ s.pos + c.utf8Size :=
    Nat.le_trans (flush_behind h.behind t ht) (Nat.le_add_right _ _)
  rw [Lexer.wordStep, Open.textStep]
  by_cases hquote : isQuote c = true
  · rw [if_pos hquote, if_pos hquote]
    exact .ofQuote rfl (fun _ => hflushed) hquote (flush_current s)
  rw [if_neg hquote, if_neg hquote]
  have hstarts : (isOpening c = true ∧ s.current.isEmpty = true) ↔ (isOpening c = true ∧ w = true) := by
    refine and_congr_right fun hopening => ?_
    rw [List.isEmpty_iff, hstart]
    exact (and_iff_left (hglued hopening)).symm
  by_cases hopening : isOpening c = true ∧ s.current.isEmpty = true
  · rw [if_pos hopening, if_pos (hstarts.mp hopening)]
    exact .ofLiteral rfl (fun _ => hbehind) Nat.zero_lt_one (fun _ => rfl) (List.isEmpty_iff.mp hopening.2)
  rw [if_neg hopening, if_neg fun hc => hopening (hstarts.mpr hc)]
  cases hsep : Lexer.separator c with
  | some kind =>
      have hplain : isWhitespace c = true ∨ c = ',' ∨ c = '(' ∨ c = ')' :=
        .inr (separator_isSome.mp (Option.isSome_iff_exists.mpr ⟨kind, hsep⟩))
      rw [if_pos hplain]
      refine .ofWord hmode (fun t ht => ?_) (iff_of_true rfl ⟨flush_current s, ?_⟩)
      · rw [eq_of_last_push ht]
        exact Nat.add_le_add_left hsize _
      · rintro ⟨-, t, ht, -, hkind⟩
        rw [eq_of_last_push ht] at hkind
        exact separator_not_mem hsep hkind
  | none =>
      have hplain : ¬ (c = ',' ∨ c = '(' ∨ c = ')') := by
        rw [← separator_isSome, hsep]
        decide
      by_cases hwhite : isWhitespace c = true
      · have hor : isWhitespace c = true ∨ c = ',' ∨ c = '(' ∨ c = ')' := .inl hwhite
        rw [if_pos hor]
        dsimp only
        rw [if_pos hwhite]
        refine .ofWord hmode (fun _ => hflushed) (iff_of_true rfl ⟨flush_current s, ?_⟩)
        rintro ⟨-, t, ht, hstop, -⟩
        have hle : t.stop ≤ s.pos := flush_behind h.behind t ht
        have hstop : t.stop = s.pos + c.utf8Size := hstop
        omega
      · rw [if_neg (not_or.mpr ⟨hwhite, hplain⟩)]
        dsimp only
        rw [if_neg hwhite]
        refine .ofWord hm (fun _ => hbehind) (iff_of_false Bool.noConfusion ?_)
        rintro ⟨hnil, -⟩
        exact List.append_ne_nil_of_right_ne_nil _ (List.cons_ne_nil c []) hnil

theorem quoteStep_same {q : Char} {start : Nat} {text : List Char} (h : Same s o) (hm : s.mode = .quote q start text) :
    Same (Lexer.quoteStep s q start text c) (if c = q then { o with quote := none } else o) := by
  have hplace := h.place
  rw [hm] at hplace
  obtain ⟨rfl, hquote, hcurrent⟩ := hplace
  rw [Lexer.quoteStep]
  by_cases hc : c = q
  · have hsize : c.utf8Size = 1 := utf8Size_quote (hc ▸ hquote)
    rw [if_pos hc, if_pos hc, hsize]
    refine .ofWord rfl (fun t ht => ?_) (iff_of_false Bool.noConfusion fun hg => hg.2 ?_)
    · rw [eq_of_last_push ht]
    · exact ⟨hcurrent, _, last_push s _, rfl, quoteKind_mem q⟩
  · rw [if_neg hc, if_neg hc]
    exact .ofQuote rfl (fun t ht => Nat.le_trans (h.behind t ht) (Nat.le_add_right _ _)) hquote hcurrent

theorem literalStep_same {opening : Char} {start depth : Nat} {text : List Char} {inStr escaped : Bool} (h : Same s o)
    (hm : s.mode = .literal opening start text depth inStr escaped) :
    Same (Lexer.literalStep s opening start text depth inStr escaped c) (o.jsonStep c) := by
  have hplace := h.place
  rw [hm] at hplace
  obtain ⟨rfl, hdepth, hescape, hcurrent⟩ := hplace
  have hgoes {d : Nat} {i e : Bool} (hd : 0 < d) (he : i = false → e = false) :
      Same { s with pos := s.pos + c.utf8Size, mode := .literal opening start (text ++ [c]) d i e }
        ⟨d, none, i, e, false⟩ :=
    .ofLiteral rfl (fun t ht => Nat.le_trans (h.behind t ht) (Nat.le_add_right _ _)) hd he hcurrent
  rw [Lexer.literalStep, Open.jsonStep]
  dsimp only
  by_cases hinStr : inStr = true
  · rw [if_pos hinStr, if_pos hinStr]
    by_cases hescaped : escaped = true
    · rw [if_pos hescaped, if_pos hescaped, hinStr]
      exact hgoes hdepth fun _ => rfl
    rw [if_neg hescaped, if_neg hescaped]
    by_cases hback : c = '\\'
    · rw [if_pos hback, if_pos hback, hinStr]
      exact hgoes hdepth Bool.noConfusion
    · obtain rfl : escaped = false := Bool.not_eq_true _ ▸ hescaped
      rw [if_neg hback, if_neg hback]
      exact hgoes hdepth fun _ => rfl
  obtain rfl : inStr = false := Bool.not_eq_true _ ▸ hinStr
  obtain rfl : escaped = false := hescape rfl
  rw [if_neg hinStr, if_neg hinStr]
  by_cases hdq : c = '"'
  · rw [if_pos hdq, if_pos hdq, if_neg (Nat.ne_of_gt hdepth)]
    exact hgoes hdepth fun _ => rfl
  rw [if_neg hdq, if_neg hdq]
  by_cases hopening : isOpening c = true
  · rw [if_pos hopening, if_pos hopening, if_neg (Nat.succ_ne_zero depth)]
    exact hgoes (Nat.succ_pos depth) fun _ => rfl
  rw [if_neg hopening, if_neg hopening]
  by_cases hclosing : isClosing c = true
  · rw [if_pos hclosing, if_pos hclosing]
    by_cases hzero : depth - 1 = 0
    · rw [if_pos hzero, if_pos hzero, hzero]
      refine .ofWord rfl (fun t ht => ?_) (iff_of_false Bool.noConfusion fun hg => hg.2 ?_)
      · rw [eq_of_last_push ht]
      · exact ⟨hcurrent, _, last_push s _, rfl, .tail _ (.tail _ (.tail _ (.head _)))⟩
    · rw [if_neg hzero, if_neg hzero]
      exact hgoes (Nat.pos_of_ne_zero hzero) fun _ => rfl
  · rw [if_neg hclosing, if_neg hclosing, if_neg (Nat.ne_of_gt hdepth)]
    exact hgoes hdepth fun _ => rfl

/-- A character takes both scanners to the same place, but for a bracket that stands where a
quoted text or a literal ends. -/
theorem step_same (h : Same s o) (hglued : s.mode = .word → isOpening c = true → ¬ Glued s) :
    Same (Lexer.step s c) (o.step c) := by
  have hplace := h.place
  rw [Lexer.step, Open.step]
  cases hm : s.mode with
  | word =>
      rw [hm] at hplace
      have ho : o = ⟨0, none, false, false, o.wordStart⟩ := hplace.1
      rw [ho] at h ⊢
      exact wordStep_same h hm (hglued hm)
  | quote q start text =>
      rw [hm] at hplace
      obtain ⟨rfl, -⟩ := hplace
      exact quoteStep_same h hm
  | literal opening start text depth inStr escaped =>
      rw [hm] at hplace
      obtain ⟨rfl, hdepth, -⟩ := hplace
      dsimp only
      rw [if_pos hdepth]
      exact literalStep_same h hm

theorem init_same : Same .init .init := by
  refine .ofWord rfl (fun t ht => (nomatch ht)) (iff_of_true rfl ⟨rfl, ?_⟩)
  rintro ⟨-, t, ht, -⟩
  exact nomatch ht

theorem lexer_scan_concat (p : List Char) (c : Char) : Lexer.scan (p ++ [c]) = Lexer.step (Lexer.scan p) c :=
  List.foldl_concat ..

theorem scan_concat (p : List Char) (c : Char) : scan (p ++ [c]) = (scan p).step c := List.foldl_concat ..

theorem pos_step (s : Scan) (c : Char) : (Lexer.step s c).pos = s.pos + c.utf8Size := by
  unfold Lexer.step
  split
  · unfold Lexer.wordStep
    split
    · rfl
    · split
      · rfl
      · split
        · rfl
        · split <;> rfl
  · unfold Lexer.quoteStep
    split <;> rfl
  · unfold Lexer.literalStep
    dsimp only
    repeat' split
    all_goals rfl

theorem pos_scan (p : List Char) : (Lexer.scan p).pos = byteLen p := by
  induction p using List.reverseRecOn with
  | nil => rfl
  | append_singleton p c ih => rw [lexer_scan_concat, pos_step, ih]; simp [byteLen]

theorem closed_iff (p : List Char) : Closed p ↔ (Lexer.scan p).mode = .word ∧ Glued (Lexer.scan p) := by
  rw [Closed, Lexer.tokenize, Lexer.finish, ← pos_scan]
  generalize Lexer.scan p = s
  constructor
  · rintro ⟨tokens, t, hok, hstop, hkind⟩
    split at hok
    · next hm =>
        have htokens : s.flush.tokens = tokens ++ [t] := Except.ok.inj hok
        have hlast : s.flush.tokens.getLast? = some t := by rw [htokens, List.getLast?_concat]
        refine ⟨hm, ?_⟩
        unfold Scan.flush at hlast
        split at hlast
        · next hempty => exact ⟨List.isEmpty_iff.mp hempty, t, hlast, hstop, hkind⟩
        · rw [List.getLast?_concat, Option.some.injEq] at hlast
          rw [← hlast] at hkind
          exact absurd hkind (show Kind.bare ∉ closers by decide)
    · exact nomatch hok
    · exact nomatch hok
  · rintro ⟨hm, hcurrent, t, ht, hstop, hkind⟩
    have hflush : s.flush = s := if_pos (List.isEmpty_iff.mpr hcurrent)
    refine ⟨s.tokens.dropLast, t, ?_, hstop, hkind⟩
    rw [hm, hflush, List.dropLast_append_getLast? t ht]

theorem scan_same {text : List Char} (h : Separated text) : Same (Lexer.scan text) (scan text) := by
  induction text using List.reverseRecOn with
  | nil => exact init_same
  | append_singleton p c ih =>
      rw [lexer_scan_concat, scan_concat]
      refine step_same (ih ?_) fun hm hopening hglued => ?_
      · intro q d r hq hd
        exact h q d (r ++ [c]) (by rw [hq]; simp) hd
      · exact h p c [] rfl hopening ((closed_iff p).mpr ⟨hm, hglued⟩)

theorem getElem?_toList_append {a b : String} {n : Nat} (hn : n < a.toList.length) :
    (a ++ b).toList[n]? = a.toList[n]? := by
  rw [String.toList_append, List.getElem?_append_left hn]

theorem unclosedQuote_ne (q c : Char) : Lexer.unclosedQuote q ≠ unclosedBracket c := by
  have hquote : 23 < "Syntax Error: Unclosed quote detected (".toList.length ∧
      "Syntax Error: Unclosed quote detected (".toList[23]? = some 'q' := by decide
  have hbracket : 23 < "Syntax Error: Unclosed bracket detected (".toList.length ∧
      "Syntax Error: Unclosed bracket detected (".toList[23]? = some 'b' := by decide
  have hq : Lexer.unclosedQuote q = "Syntax Error: Unclosed quote detected (" ++ (toString q ++ ").") :=
    String.append_assoc
  have hb : unclosedBracket c = "Syntax Error: Unclosed bracket detected (" ++ (toString c ++ ").") :=
    String.append_assoc
  intro h
  have hlist := congrArg (fun t : String => t.toList[23]?) h
  rw [hq, hb, getElem?_toList_append hquote.1, getElem?_toList_append hbracket.1, hquote.2, hbracket.2] at hlist
  exact absurd (Option.some.inj hlist) (by decide)

theorem unclosed_iff (text : List Char) :
    Unclosed text ↔ ∃ opening start t depth inStr escaped,
      (Lexer.scan text).mode = .literal opening start t depth inStr escaped := by
  rw [Unclosed, Lexer.tokenize, Lexer.finish]
  generalize Lexer.scan text = s
  constructor
  · rintro ⟨c, hc⟩
    split at hc
    · exact nomatch hc
    · exact absurd (Except.error.inj hc) (unclosedQuote_ne _ _)
    · next opening start t depth inStr escaped hm => exact ⟨opening, start, t, depth, inStr, escaped, hm⟩
  · rintro ⟨opening, start, t, depth, inStr, escaped, hm⟩
    rw [hm]
    exact ⟨opening, rfl⟩

theorem agrees_of_same {text : List Char} (h : Same (Lexer.scan text) (scan text)) : Agrees text := by
  have hplace := h.place
  rw [Agrees, unclosed_iff, isOpen, decide_eq_true_iff]
  cases hm : (Lexer.scan text).mode with
  | word =>
      rw [hm] at hplace
      rw [hplace.1]
      refine iff_of_false (Nat.lt_irrefl 0) ?_
      rintro ⟨_, _, _, _, _, _, h⟩
      exact nomatch h
  | quote q start t =>
      rw [hm] at hplace
      rw [hplace.1]
      refine iff_of_false (Nat.lt_irrefl 0) ?_
      rintro ⟨_, _, _, _, _, _, h⟩
      exact nomatch h
  | literal opening start t depth inStr escaped =>
      rw [hm] at hplace
      rw [hplace.1]
      exact iff_of_true hplace.2.1 ⟨_, _, _, _, _, _, rfl⟩

end KivaDb.Kva
