import KivaDb.Shell.Open

namespace KivaDb.Kva

open JsonPath (isWhitespace)
open Lexer (isOpening unclosedBracket tokenize)

/-- Where the scanners come apart: the lexer opens a literal, `is_open` goes on in a word. -/
theorem closed_disagrees {p : List Char} {c : Char} (h : Same (Lexer.scan p) (scan p)) (hc : isOpening c = true)
    (hp : Closed p) : ¬ Agrees (p ++ [c]) := by
  obtain ⟨hm, hglued⟩ := (closed_iff p).mp hp
  have hplace := h.place
  rw [hm] at hplace
  obtain ⟨ho, hstart⟩ := hplace
  obtain ⟨hquote, hsep, hwhite, hplain⟩ := opening_plain hc
  have hword : (scan p).wordStart = false := Bool.eq_false_iff.mpr fun hw => (hstart.mp hw).2 hglued
  have hempty : (Lexer.scan p).current.isEmpty = true := List.isEmpty_iff.mpr hglued.1
  have hunclosed : Unclosed (p ++ [c]) := by
    refine (unclosed_iff _).mpr ⟨c, (Lexer.scan p).pos, [c], 1, false, false, ?_⟩
    rw [lexer_scan_concat, Lexer.step, hm]
    dsimp only
    rw [Lexer.wordStep, hquote, if_neg Bool.false_ne_true, if_pos ⟨hc, hempty⟩]
  have hopen : isOpen (p ++ [c]) = false := by
    rw [isOpen, scan_concat, ho, hword]
    simp [Open.step, Open.textStep, hquote, hwhite, hplain]
  intro hagrees
  exact Bool.false_ne_true (hopen.symm.trans (hagrees.mpr hunclosed))

theorem same_of_agrees {text : List Char} (h : ∀ p, p <+: text → Agrees p) : Same (Lexer.scan text) (scan text) := by
  induction text using List.reverseRecOn with
  | nil => exact init_same
  | append_singleton p c ih =>
      have hsame := ih fun q hq => h q (hq.trans (List.prefix_append p [c]))
      rw [lexer_scan_concat, scan_concat]
      refine step_same hsame fun hm hopening hglued => ?_
      exact closed_disagrees hsame hopening ((closed_iff p).mpr ⟨hm, hglued⟩) (h _ List.prefix_rfl)

theorem Separated.of_prefix {p text : List Char} (h : Separated text) (hp : p <+: text) : Separated p := by
  obtain ⟨r, rfl⟩ := hp
  intro q c r' hq
  exact h q c (r' ++ r) (by rw [hq]; simp)

/-- The scanners agree on every beginning of a text exactly where no bracket stands behind a
quoted text or a literal. -/
theorem agrees_iff_separated (text : List Char) : (∀ p, p <+: text → Agrees p) ↔ Separated text := by
  constructor
  · rintro h p c r rfl hc hp
    have hpre : p ++ [c] <+: p ++ c :: r := ⟨r, by simp⟩
    refine closed_disagrees (same_of_agrees fun q hq => h q (hq.trans (List.prefix_append p _))) hc hp (h _ hpre)
  · intro h p hp
    exact agrees_of_same (scan_same (h.of_prefix hp))

theorem mem_of_trimEnd {p : Char → Bool} {l : List Char} {c : Char} (h : c ∈ trimEnd p l) : c ∈ l :=
  List.mem_reverse.mp ((List.dropWhile_sublist p).subset (List.mem_reverse.mp h))

/-- Every line but the first is joined to an open text. -/
def Joined (text : List Char) : Prop := ∀ q r, text = q ++ '\n' :: r → isOpen q = true

theorem joined_of_not_mem {text : List Char} (h : '\n' ∉ text) : Joined text := by
  rintro q r rfl
  exact absurd (List.mem_append_right q List.mem_cons_self) h

theorem Joined.append {text line : List Char} (h : Joined text) (hopen : isOpen text = true) (hline : '\n' ∉ line) :
    Joined (text ++ '\n' :: line) := by
  intro q r hq
  rcases List.append_eq_append_iff.mp hq with ⟨t, rfl, ht⟩ | ⟨t, rfl, ht⟩
  · cases t with
    | nil => rwa [List.append_nil]
    | cons c t =>
        have hrest := (List.cons.inj ht).2
        exact absurd (hrest ▸ List.mem_append_right t List.mem_cons_self) hline
  · cases t with
    | nil => rwa [List.append_nil] at hopen
    | cons c t =>
        obtain ⟨rfl, -⟩ := List.cons.inj ht
        exact h q t rfl

/-- The commands so far, and the open one. -/
structure Split.Sound (s : Split) : Prop where
  out : ∀ st ∈ s.out, isOpen st.text = false ∧ Joined st.text
  pending : ∀ st ∈ s.pending, isOpen st.text = true ∧ Joined st.text

theorem Split.Sound.take {s : Split} (h : s.Sound) (i : Nat) {raw : List Char} (hraw : '\n' ∉ raw) :
    (s.take i raw).Sound := by
  have hline : '\n' ∉ trimEnd (· = '\r') raw := fun hn => hraw (mem_of_trimEnd hn)
  have hadd : ∀ p ∈ s.add i raw, Joined p.text := by
    intro p hp
    unfold Split.add at hp
    split at hp
    · next q hq =>
        obtain ⟨hopen, hjoined⟩ := h.pending q hq
        rw [← Option.mem_some_iff.mp hp]
        exact hjoined.append hopen hline
    · dsimp only at hp
      split at hp
      · exact nomatch hp
      · rw [← Option.mem_some_iff.mp hp]
        exact joined_of_not_mem fun hn => hline ((List.dropWhile_sublist _).subset hn)
  unfold Split.take
  cases hs : s.add i raw with
  | none => exact h
  | some p =>
      have hjoined := hadd p hs
      dsimp only
      cases hopen : isOpen p.text with
      | true =>
          rw [if_pos rfl]
          refine ⟨h.out, fun st hst => ?_⟩
          rw [← Option.mem_some_iff.mp hst]
          exact ⟨hopen, hjoined⟩
      | false =>
          rw [if_neg Bool.false_ne_true]
          refine ⟨fun st hst => ?_, fun st hst => nomatch hst⟩
          rcases List.mem_append.mp hst with hst | hst
          · exact h.out st hst
          · rw [List.mem_singleton.mp hst]
            exact ⟨hopen, hjoined⟩

theorem splitLoop_sound {lines : List (List Char)} (hlines : ∀ l ∈ lines, '\n' ∉ l) {s : Split} (h : s.Sound) (i : Nat) :
    (splitLoop i lines s).Sound := by
  induction lines generalizing s i with
  | nil => exact h
  | cons l lines ih =>
      obtain ⟨hl, hlines⟩ := List.forall_mem_cons.mp hlines
      exact ih hlines (h.take i hl) (i + 1)

theorem commands_sound (source : List Char) : (commands source).Sound :=
  splitLoop_sound (fun _ => Config.not_mem_lines) ⟨fun _ hst => absurd hst List.not_mem_nil, fun st hst => absurd hst (Option.not_mem_none st)⟩ 0

/-- A command ends where the lexer has no literal open, and goes on only behind a text in which
it has one. -/
def Continues (s : Split) : Prop :=
  (∀ st ∈ s.out, Separated st.text → ¬ Unclosed st.text) ∧
    ∀ st, (st ∈ s.out ∨ st ∈ s.pending) → Separated st.text → ∀ q r, st.text = q ++ '\n' :: r → Unclosed q

/-- `is_open` says what the lexer does, for every beginning of a text, exactly where no opening
bracket stands behind a quoted text or a literal; and a file whose commands are so is split
where the lexer has no literal open. -/
theorem open_exact (text source : List Char) :
    ((∀ p, p <+: text → Agrees p) ↔ Separated text) ∧ Continues (commands source) := by
  refine ⟨agrees_iff_separated text, fun st hst hsep hunclosed => ?_, fun st hst hsep q r hq => ?_⟩
  · have hopen := ((commands_sound source).out st hst).1
    have hagrees := (agrees_iff_separated st.text).mpr hsep st.text List.prefix_rfl
    exact Bool.false_ne_true (hopen.symm.trans (hagrees.mpr hunclosed))
  · have hjoined : Joined st.text := by
      rcases hst with hst | hst
      · exact ((commands_sound source).out st hst).2
      · exact ((commands_sound source).pending st hst).2
    have hagrees := (agrees_iff_separated st.text).mpr hsep q ⟨'\n' :: r, hq.symm⟩
    exact hagrees.mp (hjoined q r hq)

/-- `set k "a"{`: the lexer has a literal open, `is_open` does not say so. -/
theorem glued_disagrees : ¬ Agrees "set k \"a\"\x7b".toList := by
  intro h
  have hunclosed : Unclosed "set k \"a\"\x7b".toList := ⟨'{', by decide⟩
  exact absurd (h.mpr hunclosed) (by decide)

end KivaDb.Kva
