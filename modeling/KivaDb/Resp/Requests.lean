import KivaDb.Integers
import KivaDb.Resp.Framing

namespace KivaDb.Resp.Wire

open Lib.LittleEndian Lib.Utf8 Lib.Framing

/-- A command as clients send it. -/
def encodeCommand (args : List Bytes) : Bytes := header 42 args.length ++ args.flatMap bulkBytes

/-- A command within the limits of the protocol. -/
structure Sendable (args : List Bytes) : Prop where
  some : args ≠ []
  count : args.length ≤ maxArgs
  sizes : ∀ a ∈ args, a.length ≤ maxBulk

/-- Commands read one after another, up to the end of the stream. -/
inductive Served : Bytes → List (List Bytes) → Prop
  | done {r rest : Bytes} (h : readCommand r = Outcome.of (.ok (none, rest))) : Served r []
  | next {r rest : Bytes} {args : List Bytes} {more : List (List Bytes)}
      (h : readCommand r = Outcome.of (.ok (some args, rest))) (ht : Served rest more) : Served r (args :: more)

section Commands

theorem Outcome.ok_bind {α β : Type} (a : α) (f : α → Outcome β) : Outcome.of (.ok a) >>= f = f a := rfl

theorem Outcome.error_bind {α β : Type} (e : String) (f : α → Outcome β) :
    Outcome.of (.error e) >>= f = Outcome.of (.error e) := rfl

variable {l rest : Bytes}

theorem readUntil_append (h : 10 ∉ l) : readUntil (l ++ 10 :: rest) = (l ++ [10], rest) := by
  induction l with
  | nil => rfl
  | cons b l ih =>
      rw [List.mem_cons, not_or] at h
      rw [List.cons_append, readUntil, if_neg (Ne.symm h.1), ih h.2]
      rfl

theorem trimBreaks_crlf (h : ∀ b ∈ l, isBreak b = false) : trimBreaks (l ++ crlf) = l := by
  have hrev : (l ++ crlf).reverse = 10 :: 13 :: l.reverse := List.reverse_append
  have hdrop : (10 :: 13 :: l.reverse).dropWhile isBreak = l.reverse := by
    rw [List.dropWhile_cons_of_pos (by decide), List.dropWhile_cons_of_pos (by decide)]
    apply List.dropWhile_eq_self_iff.mpr
    intro hlen
    rw [h _ (List.mem_reverse.mp (List.getElem_mem _))]
    decide
  rw [trimBreaks, hrev, hdrop, List.reverse_reverse]

theorem readLine_crlf (h : ∀ b ∈ l, isBreak b = false) : readLine (l ++ crlf ++ rest) = some (l, rest) := by
  have hsplit : l ++ crlf ++ rest = (l ++ [13]) ++ 10 :: rest := by
    rw [List.append_assoc, List.append_assoc]
    rfl
  have hten : 10 ∉ l ++ [13] := by
    intro hmem
    rcases List.mem_append.mp hmem with hmem | hmem
    · exact absurd (h 10 hmem) (by decide)
    · exact absurd (List.mem_singleton.mp hmem) (by decide)
  have hcrlf : (l ++ [13]) ++ [10] = l ++ crlf := List.append_assoc _ _ _
  rw [readLine, if_neg (by simp [crlf]), hsplit, readUntil_append hten, hcrlf]
  simp only [trimBreaks_crlf h]

theorem not_break_digits {n : Nat} {b : UInt8} (h : b ∈ ascii (Nat.toDigits 10 n)) : isBreak b = false := by
  by_contra hb
  rw [Bool.not_eq_false, isBreak, Bool.or_eq_true, decide_eq_true_eq, decide_eq_true_eq] at hb
  have hlt : b < 128 := by rcases hb with rfl | rfl <;> decide
  have hmem := mem_asBytes hlt h
  rw [String.toList_ofList] at hmem
  have hdigit := isDigit_toDigits hmem
  rcases hb with rfl | rfl
  · exact absurd hdigit (by decide)
  · exact absurd hdigit (by decide)

theorem readLine_header {mark : UInt8} (hm : isBreak mark = false) (n : Nat) :
    readLine (header mark n ++ rest) = some (mark :: ascii (Nat.toDigits 10 n), rest) := by
  apply readLine_crlf (l := mark :: ascii (Nat.toDigits 10 n))
  intro b hb
  rcases List.mem_cons.mp hb with rfl | hb
  · exact hm
  · exact not_break_digits hb

theorem readLineOr_header {mark : UInt8} (hm : isBreak mark = false) (n : Nat) (msg : String) :
    readLineOr msg (header mark n ++ rest) = Outcome.of (.ok (mark :: ascii (Nat.toDigits 10 n), rest)) := by
  rw [readLineOr, readLine_header hm]

theorem usizeOr_digits {n : Nat} (h : n < 2 ^ 64) (msg : String) :
    usizeOr msg (ascii (Nat.toDigits 10 n)) = Outcome.of (.ok n) := by
  have hparse : parseUsize (ascii (Nat.toDigits 10 n)) = some n := by
    rw [parseUsize, ascii, fromUtf8_asBytes, Option.bind_some, String.toList_ofList, Num.readU64_toDigits h]
  rw [usizeOr, hparse]

theorem readArg_bulk {a : Bytes} (h : a.length ≤ maxBulk) : readArg (bulkBytes a ++ rest) = Outcome.of (.ok (a, rest)) := by
  have hexact : readExact (a.length + 2) (a ++ crlf ++ rest) = Outcome.of (.ok (a ++ crlf, rest)) := by
    have hlen : (a ++ crlf).length = a.length + 2 := List.length_append
    rw [readExact, if_pos (by rw [List.length_append, hlen]; exact Nat.le_add_right _ _), ← hlen, List.take_left, List.drop_left]
  have hsize : a.length < 2 ^ 64 := by
    unfold maxBulk at h
    omega
  rw [readArg, bulkBytes, List.append_assoc, readLineOr_header (by decide), Outcome.ok_bind]
  dsimp only
  rw [List.head?_cons, if_neg (not_not.mpr rfl), afterMark, Outcome.ok_bind, usizeOr_digits hsize, Outcome.ok_bind,
    if_neg (not_lt.mpr h), hexact, Outcome.ok_bind]
  dsimp only
  rw [List.take_left]
  rfl

theorem readArgs_flatMap {args : List Bytes} (h : ∀ a ∈ args, a.length ≤ maxBulk) :
    readArgs args.length (args.flatMap bulkBytes ++ rest) = Outcome.of (.ok (args, rest)) := by
  induction args with
  | nil => rfl
  | cons a args ih =>
      obtain ⟨ha, h⟩ := List.forall_mem_cons.mp h
      rw [List.length_cons, readArgs, List.flatMap_cons, List.append_assoc, readArg_bulk ha, Outcome.ok_bind]
      dsimp only
      rw [ih h]
      rfl

theorem readCommand_encode {args : List Bytes} (h : Sendable args) :
    readCommand (encodeCommand args ++ rest) = Outcome.of (.ok (some args, rest)) := by
  have hsize : args.length < 2 ^ 64 := by
    have := h.count
    unfold maxArgs at this
    omega
  have harray : readArray (encodeCommand args ++ rest) = Outcome.of (.ok (args, rest)) := by
    rw [readArray, encodeCommand, List.append_assoc, readLineOr_header (by decide), Outcome.ok_bind]
    dsimp only
    rw [afterMark, Outcome.ok_bind, usizeOr_digits hsize, Outcome.ok_bind, if_neg (not_lt.mpr h.count),
      readArgs_flatMap h.sizes]
  have hfirst : ∃ r, encodeCommand args ++ rest = 42 :: r := ⟨_, rfl⟩
  obtain ⟨r, hr⟩ := hfirst
  rw [hr] at harray ⊢
  rw [readCommand, readFrom, if_neg (by decide), harray, Outcome.ok_bind]
  exact if_neg h.some

/-- Commands sent one behind the other are read one after the other, and nothing else. -/
theorem served_flatMap {cmds : List (List Bytes)} (h : ∀ c ∈ cmds, Sendable c) : Served (cmds.flatMap encodeCommand) cmds := by
  induction cmds with
  | nil => exact .done rfl
  | cons c cmds ih =>
      obtain ⟨hc, h⟩ := List.forall_mem_cons.mp h
      exact .next (readCommand_encode hc) (ih h)

end Commands

section Ends

/-- It ends without a panic, and a success satisfies `p`. -/
def Safe {α : Type} (p : α → Prop) (m : Outcome α) : Prop := ∃ e, m = Outcome.of e ∧ ∀ a, e = .ok a → p a

variable {α β : Type} {p : α → Prop} {q : β → Prop}

theorem safe_ok {a : α} (h : p a) : Safe p (Outcome.of (.ok a)) :=
  ⟨_, rfl, fun _ hb => Except.ok.inj hb ▸ h⟩

theorem safe_bad (msg : String) : Safe p (bad msg) := ⟨_, rfl, fun _ h => nomatch h⟩

theorem Safe.bind {m : Outcome α} {f : α → Outcome β} (hm : Safe p m) (hf : ∀ a, p a → Safe q (f a)) : Safe q (m >>= f) := by
  obtain ⟨e, rfl, he⟩ := hm
  cases e with
  | ok a => exact hf a (he a rfl)
  | error msg => exact ⟨.error msg, rfl, fun _ h => nomatch h⟩

theorem Safe.mono {p' : α → Prop} {m : Outcome α} (hm : Safe p m) (h : ∀ a, p a → p' a) : Safe p' m := by
  obtain ⟨e, he, hp⟩ := hm
  exact ⟨e, he, fun a ha => h a (hp a ha)⟩

theorem length_readUntil (r : Bytes) : (readUntil r).2.length ≤ r.length - 1 := by
  induction r with
  | nil => exact Nat.le_refl 0
  | cons b r ih =>
      rw [readUntil]
      split
      · exact Nat.le_refl _
      · simp only [List.length_cons]
        omega

theorem readLine_shorter {r l rest : Bytes} (h : readLine r = some (l, rest)) : rest.length < r.length := by
  rw [readLine] at h
  split at h
  · exact nomatch h
  · next hne =>
    obtain ⟨-, rfl⟩ := Prod.mk.inj (Option.some.inj h)
    have hpos := List.length_pos_iff.mpr hne
    have hle := length_readUntil r
    omega

/-- A line keeps what it begins with, unless that is a line break. -/
theorem readLine_head {b : UInt8} (hb : isBreak b = false) {r l rest : Bytes} (h : readLine (b :: r) = some (l, rest)) :
    ∃ t, l = b :: t := by
  have hne : b ≠ 10 := by
    rintro rfl
    exact absurd hb (by decide)
  rw [readLine, if_neg (List.cons_ne_nil _ _), readUntil, if_neg hne] at h
  obtain ⟨hl, -⟩ := Prod.mk.inj (Option.some.inj h)
  rw [← hl, trimBreaks, List.reverse_cons, List.dropWhile_append]
  split
  · rw [List.dropWhile_cons_of_neg (by rw [hb]; decide)]
    exact ⟨[], rfl⟩
  · exact ⟨_, List.reverse_append⟩

theorem safe_readLineOr (msg : String) (r : Bytes) :
    Safe (fun p => readLine r = some p ∧ p.2.length < r.length) (readLineOr msg r) := by
  rw [readLineOr]
  cases h : readLine r with
  | none => exact safe_bad msg
  | some p => exact safe_ok ⟨rfl, readLine_shorter h⟩

theorem safe_usizeOr (msg : String) (l : Bytes) : Safe (fun _ => True) (usizeOr msg l) := by
  rw [usizeOr]
  cases parseUsize l with
  | none => exact safe_bad msg
  | some n => exact safe_ok trivial

theorem safe_readExact (n : Nat) (r : Bytes) : Safe (fun p => p.2.length ≤ r.length) (readExact n r) := by
  rw [readExact]
  split
  · apply safe_ok
    rw [List.length_drop]
    exact Nat.sub_le _ _
  · exact safe_bad _

theorem safe_readArg (r : Bytes) : Safe (fun p => p.2.length ≤ r.length) (readArg r) := by
  apply (safe_readLineOr _ r).bind
  rintro ⟨h, rest⟩ ⟨-, hrest⟩
  dsimp only at hrest ⊢
  split
  · exact safe_bad _
  · next hmark =>
    cases h with
    | nil => exact absurd (by exact nofun) hmark
    | cons b digits =>
        apply Safe.bind (p := fun _ => True) (safe_ok trivial)
        rintro digits -
        apply (safe_usizeOr _ digits).bind
        rintro len -
        split
        · exact safe_bad _
        · apply (safe_readExact _ rest).bind
          rintro ⟨buf, rest'⟩ hle
          exact safe_ok (hle.trans hrest.le)

theorem safe_readArgs (n : Nat) (r : Bytes) : Safe (fun p => p.2.length ≤ r.length) (readArgs n r) := by
  induction n generalizing r with
  | zero => exact safe_ok (Nat.le_refl _)
  | succ n ih =>
      apply (safe_readArg r).bind
      rintro ⟨arg, rest⟩ hrest
      apply (ih rest).bind
      rintro ⟨args, rest'⟩ hle
      exact safe_ok (Nat.le_trans hle hrest)

/-- A header that begins with its mark has something after it to slice. -/
theorem safe_readArray (r : Bytes) : Safe (fun p => p.2.length < (42 :: r).length) (readArray (42 :: r)) := by
  apply (safe_readLineOr _ (42 :: r)).bind
  rintro ⟨header, rest⟩ ⟨hline, hrest⟩
  obtain ⟨digits, rfl⟩ := readLine_head (by decide) hline
  dsimp only at hrest ⊢
  apply Safe.bind (p := fun _ => True) (safe_ok trivial)
  rintro digits -
  apply (safe_usizeOr _ digits).bind
  rintro n -
  split
  · exact safe_bad _
  · apply (safe_readArgs n rest).mono
    rintro ⟨args, rest'⟩ hle
    exact Nat.lt_of_le_of_lt hle hrest

theorem safe_readFrom (fuel : Nat) (r : Bytes) (h : r.length < fuel) : Safe (fun _ => True) (readFrom fuel r) := by
  induction fuel generalizing r with
  | zero => exact absurd h (Nat.not_lt_zero _)
  | succ fuel ih =>
      cases r with
      | nil => exact safe_ok trivial
      | cons first r =>
          rw [readFrom]
          by_cases hfirst : first = 42
          · subst hfirst
            rw [if_neg (not_not.mpr rfl)]
            apply (safe_readArray r).bind
            rintro ⟨args, rest⟩ hrest
            dsimp only at hrest ⊢
            split
            · exact ih rest (by omega)
            · exact safe_ok trivial
          · rw [if_pos hfirst]
            cases hline : readLine (first :: r) with
            | none => exact safe_ok trivial
            | some p =>
                obtain ⟨l, rest⟩ := p
                have hrest := readLine_shorter hline
                dsimp only
                split
                · exact ih rest (by omega)
                · exact safe_ok trivial

/-- Whatever the bytes, reading a command ends, without a panic. -/
theorem readCommand_ends (r : Bytes) : ∃ e, readCommand r = Outcome.of e := by
  obtain ⟨e, he, -⟩ := safe_readFrom (r.length + 1) r (Nat.lt_succ_self _)
  exact ⟨e, he⟩

end Ends

/-- Commands are read as they were sent, reading always ends, and a reply is one frame that gives it back,
but for what the protocol has no room for. -/
theorem framing_exact [Display] :
    (∀ cmds : List (List Bytes), (∀ c ∈ cmds, Sendable c) → Served (cmds.flatMap encodeCommand) cmds) ∧
    (∀ r : Bytes, ∃ e, readCommand r = Outcome.of e) ∧
    (∀ (resp3 : Bool) (r : Reply), r.whole = true → ∀ tail : Bytes,
      Message.read (encode resp3 r ++ tail) = some (received resp3 r, tail)) :=
  ⟨fun _ h => served_flatMap h, readCommand_ends, fun resp3 _ h tail => read_encode resp3 h tail⟩

section Samples

local instance exactDisplay : Display := Display.exactly

/-- PING, then ECHO of a line break. -/
def pingEcho : List (List Bytes) := [[[80, 73, 78, 71]], [[69, 67, 72, 79], [13, 10]]]

theorem framing_exact_pingEcho :
    Served (pingEcho.flatMap encodeCommand) pingEcho ∧
      Message.read (encode true (.push [.bulk none, .int (-5)]) ++ [1, 2]) =
        some (.push [.null, .int (-5)], [1, 2]) := by
  refine ⟨framing_exact.1 pingEcho ?_, ?_⟩
  · intro c hc
    rcases List.mem_cons.mp hc with rfl | hc
    · exact ⟨by decide, by decide, by decide⟩
    · obtain rfl := List.mem_singleton.mp hc
      exact ⟨by decide, by decide, by decide⟩
  · exact framing_exact.2.2 true (.push [.bulk none, .int (-5)]) (by decide) [1, 2]

/-- RESP3 has one null for both. -/
theorem nulls_merge :
    ¬ ∃ read : Bytes → Option (Message × Bytes), read (encode true (.bulk none)) = some (.bulk none, []) ∧
      read (encode true (.array none)) = some (.array none, []) := by
  rintro ⟨read, hbulk, harray⟩
  have hsame : encode true (.bulk none) = encode true (.array none) := rfl
  rw [hsame, harray] at hbulk
  exact nomatch Option.some.inj hbulk

end Samples

end KivaDb.Resp.Wire
