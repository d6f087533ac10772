import KivaDb.Lib.Fallible
import KivaDb.Time.Pattern

namespace KivaDb

namespace Time

open Lib.Calendar Lib.Fallible

def Part.twoDigit : Part → Bool
  | .month | .day | .hour | .minute | .second => true
  | _ => false

namespace Pattern

/-- Whether a text may end here. -/
def trailing (parts : List Part) : Bool := parts = [] ∨ optional parts

/-- The numbers of two digits that a format takes from an ISO text, where it follows one:
`YYYY-_-_ _:_`, with `:_` after it or not. -/
def isoFields : List Part → Option (List Part)
  | .year :: .sep '-' :: a :: .sep '-' :: b :: .sep s :: c :: .sep ':' :: d :: tail =>
      if (s = ' ' ∨ s = 'T') ∧ a.twoDigit ∧ b.twoDigit ∧ c.twoDigit ∧ d.twoDigit then
        if trailing tail then some [a, b, c, d]
        else
          match tail with
          | .sep ':' :: e :: rest => if e.twoDigit ∧ trailing rest then some [a, b, c, d, e] else none
          | _ => none
      else none
  | _ => none

/-- Whether a format that follows an ISO text gives each number its own name. -/
def Plain (parts : List Part) : Prop := ∀ l ∈ isoFields parts, l <+: [.month, .day, .hour, .minute, .second]

instance (parts : List Part) : Decidable (Plain parts) := by
  unfold Plain
  infer_instance

/-- What the check of a format leaves. -/
structure Accepted (kind : FormatKind) (parts : List Part) : Prop where
  separators : ∀ c, .sep c ∈ parts → c ∈ Time.separators
  needed : ∀ p ∈ needed kind, p ∈ parts
  allowed : ∀ p ∈ parts, p.isField = true → p ∈ allowed kind
  offset_last : .offset ∈ parts →
    (parts.filter Part.isField).idxOf .offset + 1 = (parts.filter Part.isField).length
  month_day : (parts.filter Part.isField).idxOf? .year = some 0 → ordered (parts.filter Part.isField) .month .day = true

variable {kind : FormatKind} {parts : List Part} {bad : String → String}

theorem cons_of_map {p : Part} {r : Except String (List Part)} (h : r.map (p :: ·) = .ok parts) :
    ∃ rest, r = .ok rest ∧ parts = p :: rest := by
  rcases r with _ | rest
  · exact nomatch h
  · exact ⟨rest, rfl, (Except.ok.inj h).symm⟩

theorem separators_partsOf {s : List Char} (h : partsOf bad s = .ok parts) {c : Char} (hc : .sep c ∈ parts) :
    c ∈ Time.separators := by
  fun_induction partsOf bad s generalizing parts with
  | case1 =>
      cases Except.ok.inj h
      exact nomatch hc
  | case10 | case12 => exact nomatch h
  | case11 c' rest _ _ _ _ _ _ _ _ _ hsep ih =>
      obtain ⟨rest, hr, rfl⟩ := cons_of_map h
      rcases List.mem_cons.mp hc with hc | hc
      · cases hc
        exact hsep
      · exact ih hr hc
  | case2 _ ih | case3 _ ih | case4 _ ih | case5 _ ih | case6 _ ih | case7 _ ih | case8 _ ih | case9 _ ih =>
      obtain ⟨rest, hr, rfl⟩ := cons_of_map h
      rcases List.mem_cons.mp hc with hc | hc
      · exact nomatch hc
      · exact ih hr hc

theorem parse_ok {text : String} {p : Pattern} (h : parse kind text = .ok p) : Accepted kind p.parts := by
  unfold parse at h
  obtain ⟨parts, hparts, h⟩ := except_bind_ok.mp h
  obtain ⟨u, hcheck, h⟩ := except_bind_ok.mp h
  cases Except.ok.inj h
  have hsep : ∀ c, .sep c ∈ parts → c ∈ Time.separators := fun c hc => separators_partsOf hparts hc
  generalize hfields : parts.filter Part.isField = fields at hcheck
  have hmem {p : Part} : p ∈ fields ↔ p ∈ parts ∧ p.isField = true := by rw [← hfields, List.mem_filter]
  unfold check at hcheck
  split at hcheck
  · exact nomatch hcheck
  · split at hcheck
    · exact nomatch hcheck
    · next hneeded =>
        split at hcheck
        · exact nomatch hcheck
        · next hallowed =>
            split_ifs at hcheck with _ _ hoffset hyear
            refine ⟨hsep, fun p hp => ?_, fun p hp hfield => ?_, fun ho => ?_, fun hy => ?_⟩
            · have h := List.find?_eq_none.mp hneeded p hp
              simp only [decide_not, Bool.not_eq_true', decide_eq_false_iff_not, not_not] at h
              exact (hmem.mp h).1
            · have h := List.find?_eq_none.mp hallowed p (hmem.mpr ⟨hp, hfield⟩)
              simpa using h
            · rw [hfields]
              by_contra hne
              exact hoffset ⟨hmem.mpr ⟨ho, rfl⟩, hne⟩
            · rw [hfields] at hy ⊢
              by_contra hne
              exact hyear ⟨hy, hne⟩

namespace Accepted

/-- Where the offset stands, the fields that the format needs have been read. -/
theorem needed_before (h : Accepted kind parts) {before after : List Part} (heq : parts = before ++ .offset :: after)
    {p : Part} (hp : p ∈ Pattern.needed kind) : p ∈ before := by
  have hlast := h.offset_last (heq ▸ List.mem_append_right _ List.mem_cons_self)
  have hidx : (parts.filter Part.isField).idxOf .offset ≤ (before.filter Part.isField).length := by
    rw [heq, List.filter_append, List.filter_cons_of_pos rfl]
    by_cases hb : .offset ∈ before.filter Part.isField
    · rw [List.idxOf_append_of_mem hb]
      exact List.idxOf_le_length
    · rw [List.idxOf_append_of_notMem hb, List.idxOf_cons_self, Nat.add_zero]
  have hlen : (parts.filter Part.isField).length =
      (before.filter Part.isField).length + (1 + (after.filter Part.isField).length) := by
    rw [heq, List.filter_append, List.filter_cons_of_pos rfl, List.length_append, List.length_cons, Nat.add_comm 1]
  have hafter : after.filter Part.isField = [] := List.length_eq_zero_iff.mp (by omega)
  have hfield : p.isField = true ∧ p ≠ .offset := by
    cases kind <;> revert p <;> decide
  rcases List.mem_append.mp (heq ▸ h.needed p hp) with hb | ha
  · exact hb
  · rcases List.mem_cons.mp ha with rfl | ha
    · exact absurd rfl hfield.2
    · exact absurd hfield.1 (List.filter_eq_nil_iff.mp hafter p ha)

theorem not_offset (h : Accepted kind parts) {before rest : List Part} (heq : parts = before ++ rest)
    (hlt : (before.filter Part.isField).length < (Pattern.needed kind).length) : rest.head? ≠ some .offset := by
  intro hhead
  obtain ⟨after, rfl⟩ : ∃ after, rest = .offset :: after := by
    rcases rest with _ | ⟨p, after⟩
    · exact nomatch hhead
    · exact ⟨after, by rw [Option.some.inj hhead]⟩
  have hnodup : (Pattern.needed kind).Nodup := by cases kind <;> decide
  have hfields : ∀ p ∈ Pattern.needed kind, p.isField = true := by cases kind <;> decide
  have hsub : Pattern.needed kind ⊆ before.filter Part.isField := fun p hp =>
    List.mem_filter.mpr ⟨h.needed_before heq hp, hfields p hp⟩
  exact absurd (List.subperm_of_subset hnodup hsub).length_le (Nat.not_le.mpr hlt)

theorem not_digit (h : Accepted kind parts) {c : Char} (hc : .sep c ∈ parts) : c.isDigit = false := by
  have hsep : ∀ c ∈ Time.separators, c.isDigit = false := by simp [Time.separators]
  exact hsep c (h.separators c hc)

end Accepted

end Pattern

@[simp]
theorem Part.isField_year : Part.year.isField = true := rfl

@[simp]
theorem Part.isField_sep (c : Char) : (Part.sep c).isField = false := rfl

theorem Part.isField_of_twoDigit {p : Part} (h : p.twoDigit = true) : p.isField = true := by
  cases p <;> first | rfl | exact nomatch h

namespace Pattern

variable {kind : FormatKind} {parts ps : List Part} {s : List Char} {f g : Fields}

theorem number_some {width n : Nat} (h : number width s = some n) :
    width ≤ s.length ∧ (∀ c ∈ s.take width, c.isDigit = true) ∧ n = digitsValue (s.take width) := by
  rw [number, Option.ite_none_right_eq_some] at h
  exact ⟨h.1.1, List.all_eq_true.mp h.1.2, (Option.some.inj h.2).symm⟩

/-- One part of a format, where it is not an offset that the text leaves out. -/
theorem readParts_cons {p : Part} : ¬(s = [] ∧ optional (p :: ps) = true) →
    readParts (p :: ps) s f =
      match p with
      | .sep c => if s.head? = some c then readParts ps s.tail f else none
      | .offset =>
          if s.head? = some 'Z' ∨ s.head? = some 'z' then readParts ps s.tail { f with offset := some 0 }
          else if 6 ≤ s.length ∧ (s.take 6).all (fun c => c.toNat < 128) then
            (parseOffset (s.take 6)).bind fun o => readParts ps (s.drop 6) { f with offset := some o }
          else none
      | p => (number p.width s).bind fun n => readParts ps (s.drop p.width) (f.set p n) := by
  intro h
  cases p <;> exact if_neg h

theorem readParts_trailing (h : trailing ps = true) (f : Fields) : readParts ps [] f = some f := by
  cases ps with
  | nil => exact if_pos rfl
  | cons p ps =>
      have hopt : optional (p :: ps) = true := by simpa [trailing] using h
      exact if_pos ⟨rfl, hopt⟩

theorem readParts_empty (h : readParts ps [] f = some g) : trailing ps = true ∧ g = f := by
  by_cases htrailing : trailing ps = true
  · rw [readParts_trailing htrailing, Option.some.injEq] at h
    exact ⟨htrailing, h.symm⟩
  · cases ps with
    | nil => exact absurd rfl htrailing
    | cons p ps =>
      have hopt : ¬ optional (p :: ps) = true := by simpa [trailing] using htrailing
      rw [readParts_cons (fun hn => hopt hn.2)] at h
      cases p <;> simp [number, Part.width] at h

theorem readParts_sep {c : Char} (hc : c.isDigit = false ∧ c ≠ 'Z' ∧ c ≠ 'z')
    (ho : ps.head? ≠ some .offset ∨ s.length < 5) (h : readParts ps (c :: s) f = some g) :
    ∃ rest, ps = .sep c :: rest ∧ readParts rest s f = some g := by
  cases ps with
  | nil => cases h
  | cons p rest =>
      rw [readParts_cons (by simp)] at h
      have hnumber {width : Nat} (hw : 0 < width) : number width (c :: s) = none := by
        by_contra hne
        obtain ⟨n, hn⟩ := Option.ne_none_iff_exists'.mp hne
        obtain ⟨k, rfl⟩ := Nat.exists_eq_add_one.mpr hw
        have := (number_some hn).2.1 c (by simp)
        rw [hc.1] at this
        cases this
      cases p with
      | sep c' =>
          dsimp only at h
          split_ifs at h with heq
          cases Option.some.inj heq
          exact ⟨rest, rfl, h⟩
      | offset =>
          rcases ho with ho | hlen
          · exact absurd rfl ho
          · rw [if_neg (by simp [hc.2]), if_neg (by simp; omega)] at h
            cases h
      | _ =>
          dsimp only at h
          rw [hnumber (by decide)] at h
          cases h

theorem readParts_two {u v : Char} (hu : u.isDigit = true) (hs : ∀ c ∈ s.head?, c.isDigit = false)
    (hsep : ∀ c, .sep c ∈ ps → c.isDigit = false) (ho : ps.head? ≠ some .offset ∨ s.length < 4)
    (h : readParts ps (u :: v :: s) f = some g) :
    ∃ p rest, ps = p :: rest ∧ p.twoDigit = true ∧ readParts rest s (f.set p (digitsValue [u, v])) = some g := by
  cases ps with
  | nil => cases h
  | cons p rest =>
      rw [readParts_cons (by simp)] at h
      have hnumber {k : Nat} : number (k + 3) (u :: v :: s) = none := by
        by_contra hne
        obtain ⟨n, hn⟩ := Option.ne_none_iff_exists'.mp hne
        obtain ⟨hlen, hdigits, -⟩ := number_some hn
        cases s with
        | nil => simp at hlen
        | cons c s =>
            have := hdigits c (by simp)
            rw [hs c rfl] at this
            cases this
      cases p with
      | sep c' =>
          dsimp only at h
          split_ifs at h with heq
          cases Option.some.inj heq
          exact absurd hu (by rw [hsep _ List.mem_cons_self]; decide)
      | offset =>
          rcases ho with ho | hlen
          · exact absurd rfl ho
          · dsimp only at h
            have hz : u ≠ 'Z' ∧ u ≠ 'z' := by
              constructor <;> (rintro rfl; exact absurd hu (by decide))
            rw [if_neg (by simp [hz]), if_neg (by simp; omega)] at h
            cases h
      | year | millis =>
          dsimp only [Part.width] at h
          rw [hnumber] at h
          cases h
      | _ =>
          obtain ⟨n, hn, h⟩ := Option.bind_eq_some_iff.mp h
          obtain ⟨-, -, rfl⟩ := number_some hn
          exact ⟨_, rest, rfl, rfl, h⟩

/-- Whether four digits follow each other. -/
def hasYear : List Char → Bool
  | [] => false
  | c :: s => decide (4 ≤ (c :: s).length ∧ ((c :: s).take 4).all Char.isDigit) || hasYear s

theorem hasYear_of_drop {n : Nat} (h : hasYear (s.drop n) = true) : hasYear s = true := by
  induction n generalizing s with
  | zero => exact h
  | succ n ih =>
      cases s with
      | nil => exact h
      | cons c s => rw [hasYear, ih h, Bool.or_true]

theorem hasYear_of_read (hy : .year ∈ ps) (h : readParts ps s f = some g) : hasYear s = true := by
  induction ps generalizing s f with
  | nil => exact nomatch hy
  | cons p ps ih =>
      by_cases hopt : s = [] ∧ optional (p :: ps) = true
      · rw [optional, Bool.and_eq_true] at hopt
        exact absurd (List.all_eq_true.mp hopt.2.1 _ hy) (by decide)
      · rw [readParts_cons hopt] at h
        have hmem (hne : p ≠ .year) : .year ∈ ps := (List.mem_cons.mp hy).resolve_left (Ne.symm hne)
        cases p with
        | sep c =>
            dsimp only at h
            split_ifs at h
            exact hasYear_of_drop (n := 1) (by rw [List.drop_one]; exact ih (hmem (by simp)) h)
        | offset =>
            dsimp only at h
            split_ifs at h
            · exact hasYear_of_drop (n := 1) (by rw [List.drop_one]; exact ih (hmem (by simp)) h)
            · obtain ⟨o, -, h⟩ := Option.bind_eq_some_iff.mp h
              exact hasYear_of_drop (ih (hmem (by simp)) h)
        | year =>
            obtain ⟨n, hn, -⟩ := Option.bind_eq_some_iff.mp h
            obtain ⟨hlen, hdigits, -⟩ := number_some hn
            cases s with
            | nil => exact absurd hlen (by decide)
            | cons c s =>
                rw [hasYear, decide_eq_true ⟨hlen, List.all_eq_true.mpr hdigits⟩, Bool.true_or]
        | _ =>
            obtain ⟨n, -, h⟩ := Option.bind_eq_some_iff.mp h
            exact hasYear_of_drop (ih (hmem (by simp)) h)

theorem readParts_year {u v w x : Char} (hu : u.isDigit = true) (hs : hasYear (w :: x :: s) = false)
    (hy : .year ∈ ps) (hsep : ∀ c, .sep c ∈ ps → c.isDigit = false) (ho : ps.head? ≠ some .offset)
    (h : readParts ps (u :: v :: w :: x :: s) f = some g) :
    ∃ rest, ps = .year :: rest ∧ readParts rest s (f.set .year (digitsValue [u, v, w, x])) = some g := by
  cases ps with
  | nil => cases hy
  | cons p rest =>
      rw [readParts_cons (by simp)] at h
      have hno {s' : List Char} {f' : Fields} (hdrop : ∃ n, s' = (w :: x :: s).drop n) (hne : p ≠ .year)
          (h : readParts rest s' f' = some g) : False := by
        obtain ⟨n, rfl⟩ := hdrop
        have hyear := hasYear_of_drop (hasYear_of_read ((List.mem_cons.mp hy).resolve_left (Ne.symm hne)) h)
        rw [hs] at hyear
        cases hyear
      cases p with
      | sep c' =>
          dsimp only at h
          split_ifs at h with heq
          cases Option.some.inj heq
          exact absurd hu (by rw [hsep _ List.mem_cons_self]; decide)
      | offset => exact absurd rfl ho
      | year =>
          obtain ⟨n, hn, h⟩ := Option.bind_eq_some_iff.mp h
          obtain ⟨-, -, rfl⟩ := number_some hn
          exact ⟨rest, rfl, h⟩
      | millis =>
          obtain ⟨n, -, h⟩ := Option.bind_eq_some_iff.mp h
          exact (hno ⟨1, rfl⟩ (by simp) h).elim
      | _ =>
          obtain ⟨n, -, h⟩ := Option.bind_eq_some_iff.mp h
          exact (hno ⟨0, rfl⟩ (by simp) h).elim

/-- A format that reads a text which starts with a day takes the day as ISO lays it out. -/
theorem day_of_read (h : Accepted kind parts) (hkind : kind ≠ .time) {y₁ y₂ y₃ y₄ m₁ m₂ d₁ d₂ : Char}
    (hy : y₁.isDigit = true) (hm : m₁.isDigit = true) (hd : d₁.isDigit = true)
    (hs : ∀ c ∈ s.head?, c.isDigit = false) (hyear : hasYear (y₃ :: y₄ :: '-' :: m₁ :: m₂ :: '-' :: d₁ :: d₂ :: s) = false)
    (hread : readParts parts (y₁ :: y₂ :: y₃ :: y₄ :: '-' :: m₁ :: m₂ :: '-' :: d₁ :: d₂ :: s) f = some g) :
    ∃ a b rest, parts = [.year, .sep '-', a, .sep '-', b] ++ rest ∧ a.twoDigit = true ∧ b.twoDigit = true ∧
      readParts rest s (((f.set .year (digitsValue [y₁, y₂, y₃, y₄])).set a (digitsValue [m₁, m₂])).set b
        (digitsValue [d₁, d₂])) = some g := by
  have hthree : 3 ≤ (needed kind).length ∧ .year ∈ needed kind := by
    cases kind
    · decide
    · exact absurd rfl hkind
    · decide
  have hno (before : List Part) {rest : List Part} (heq : parts = before ++ rest)
      (hlt : (before.filter Part.isField).length < 3) : rest.head? ≠ some .offset :=
    h.not_offset heq (hlt.trans_le hthree.1)
  obtain ⟨p₁, rfl, h₁⟩ := readParts_year hy hyear (h.needed _ hthree.2) (fun c hc => h.not_digit hc)
    (hno [] (List.nil_append _).symm (by decide)) hread
  obtain ⟨p₂, rfl, h₂⟩ := readParts_sep (by decide) (.inl (hno [.year] rfl (by decide))) h₁
  obtain ⟨a, p₃, rfl, ha, h₃⟩ := readParts_two hm (by simp) (fun c hc => h.not_digit (by simp [hc]))
    (.inl (hno [.year, .sep '-'] rfl (by decide))) h₂
  have ha' := Part.isField_of_twoDigit ha
  obtain ⟨p₄, rfl, h₄⟩ := readParts_sep (by decide)
    (.inl (hno [.year, .sep '-', a] rfl (by simp [List.filter_cons, ha']))) h₃
  obtain ⟨b, rest, rfl, hb, h₅⟩ := readParts_two hd hs (fun c hc => h.not_digit (by simp [hc]))
    (.inl (hno [.year, .sep '-', a, .sep '-'] rfl (by simp [List.filter_cons, ha']))) h₄
  exact ⟨a, b, rest, rfl, ha, hb, h₅⟩

/-- So does a format that reads a text which goes on with a time. -/
theorem time_of_read (h : Accepted .datetime parts) {a b : Part} {ps : List Part}
    (heq : parts = [.year, .sep '-', a, .sep '-', b] ++ ps) {sep h₁ h₂ n₁ n₂ : Char}
    (hsep : sep.isDigit = false ∧ sep ≠ 'Z' ∧ sep ≠ 'z') (hh : h₁.isDigit = true) (hn : n₁.isDigit = true)
    (hs : ∀ c ∈ s.head?, c.isDigit = false) (hread : readParts ps (sep :: h₁ :: h₂ :: ':' :: n₁ :: n₂ :: s) f = some g) :
    ∃ c d rest, ps = [.sep sep, c, .sep ':', d] ++ rest ∧ c.twoDigit = true ∧ d.twoDigit = true ∧
      readParts rest s ((f.set c (digitsValue [h₁, h₂])).set d (digitsValue [n₁, n₂])) = some g := by
  have hno (before : List Part) {rest : List Part} (hps : ps = before ++ rest)
      (hlt : (before.filter Part.isField).length < 2) : rest.head? ≠ some .offset := by
    have happend : parts = ([.year, .sep '-', a, .sep '-', b] ++ before) ++ rest := by rw [heq, hps, List.append_assoc]
    refine h.not_offset happend ?_
    have hday : ([.year, .sep '-', a, .sep '-', b].filter Part.isField).length ≤ 3 := by
      have hle := List.length_filter_le Part.isField [.year, a, b]
      simpa [List.filter_cons] using hle
    rw [List.filter_append, List.length_append, show (needed .datetime).length = 5 from rfl]
    omega
  have hdigit {c : Char} (hc : .sep c ∈ ps) : c.isDigit = false := h.not_digit (heq ▸ List.mem_append_right _ hc)
  obtain ⟨p₁, rfl, h₁⟩ := readParts_sep hsep (.inl (hno [] (List.nil_append _).symm (by decide))) hread
  obtain ⟨c, p₂, rfl, hc, h₂⟩ := readParts_two hh (by simp) (fun c hc => hdigit (by simp [hc]))
    (.inl (hno [.sep sep] rfl (by simp))) h₁
  have hc' := Part.isField_of_twoDigit hc
  obtain ⟨p₃, rfl, h₃⟩ := readParts_sep (by decide)
    (.inl (hno [.sep sep, c] rfl (by simp [hc']))) h₂
  obtain ⟨d, rest, rfl, hd, h₄⟩ := readParts_two hn hs (fun c hc => hdigit (by simp [hc]))
    (.inl (hno [.sep sep, c, .sep ':'] rfl (by simp [hc']))) h₃
  exact ⟨c, d, rest, rfl, hc, hd, h₄⟩

theorem seconds_of_read (hsep : ∀ c, .sep c ∈ ps → c.isDigit = false) {s₁ s₂ : Char} (hs : s₁.isDigit = true)
    (hread : readParts ps [':', s₁, s₂] f = some g) :
    ∃ e rest, ps = .sep ':' :: e :: rest ∧ e.twoDigit = true ∧ trailing rest = true ∧ g = f.set e (digitsValue [s₁, s₂]) := by
  obtain ⟨p₁, rfl, h₁⟩ := readParts_sep (by decide) (.inr (by simp)) hread
  obtain ⟨e, rest, rfl, he, h₂⟩ := readParts_two hs (by simp) (fun c hc => hsep c (by simp [hc])) (.inr (by simp)) h₁
  obtain ⟨htrailing, rfl⟩ := readParts_empty h₂
  exact ⟨e, rest, rfl, he, htrailing, rfl⟩

theorem readParts_sep_cons (c : Char) (ps : List Part) (s : List Char) (f : Fields) :
    readParts (.sep c :: ps) (c :: s) f = readParts ps s f := by
  rw [readParts_cons (by simp)]
  exact if_pos rfl

theorem readParts_two_cons {p : Part} (hp : p.twoDigit = true) {u v : Char} (hu : u.isDigit = true)
    (hv : v.isDigit = true) : readParts (p :: ps) (u :: v :: s) f = readParts ps s (f.set p (digitsValue [u, v])) := by
  have hnumber : number 2 (u :: v :: s) = some (digitsValue [u, v]) := if_pos (by simp [hu, hv])
  rw [readParts_cons (by simp)]
  cases p with
  | year | millis | offset | sep => exact nomatch hp
  | _ =>
      dsimp only [Part.width]
      rw [hnumber]
      rfl

theorem readParts_year_cons {u v w x : Char} (h : ∀ c ∈ [u, v, w, x], c.isDigit = true) :
    readParts (.year :: ps) (u :: v :: w :: x :: s) f = readParts ps s (f.set .year (digitsValue [u, v, w, x])) := by
  have hnumber : number 4 (u :: v :: w :: x :: s) = some (digitsValue [u, v, w, x]) := by
    refine if_pos ⟨by simp, ?_⟩
    rw [List.all_eq_true]
    exact h
  rw [readParts_cons (by simp)]
  dsimp only [Part.width]
  rw [hnumber]
  rfl

theorem isoFields_four {a b c d : Part} {sep : Char} (hsep : sep = ' ' ∨ sep = 'T')
    (h : a.twoDigit = true ∧ b.twoDigit = true ∧ c.twoDigit = true ∧ d.twoDigit = true) (ht : trailing ps = true) :
    isoFields (.year :: .sep '-' :: a :: .sep '-' :: b :: .sep sep :: c :: .sep ':' :: d :: ps) = some [a, b, c, d] :=
  (if_pos ⟨hsep, h⟩).trans (if_pos ht)

theorem isoFields_five {a b c d e : Part} {sep : Char} (hsep : sep = ' ' ∨ sep = 'T')
    (h : a.twoDigit = true ∧ b.twoDigit = true ∧ c.twoDigit = true ∧ d.twoDigit = true) (he : e.twoDigit = true)
    (ht : trailing ps = true) :
    isoFields (.year :: .sep '-' :: a :: .sep '-' :: b :: .sep sep :: c :: .sep ':' :: d :: .sep ':' :: e :: ps) =
      some [a, b, c, d, e] := by
  have hoffset : e ≠ .offset := by
    rintro rfl
    exact nomatch he
  have hno : trailing (.sep ':' :: e :: ps) = false := by
    simp [trailing, optional, Part.isField_of_twoDigit he, hoffset]
  refine (if_pos ⟨hsep, h⟩).trans ?_
  rw [hno, if_neg (by decide)]
  exact if_pos ⟨he, ht⟩

/-- How a format looks that follows an ISO text. -/
theorem isoFields_some {l : List Part} (h : isoFields parts = some l) : ∃ a b sep c d ps,
    parts = .year :: .sep '-' :: a :: .sep '-' :: b :: .sep sep :: c :: .sep ':' :: d :: ps ∧ (sep = ' ' ∨ sep = 'T') ∧
      (a.twoDigit = true ∧ b.twoDigit = true ∧ c.twoDigit = true ∧ d.twoDigit = true) ∧
      (trailing ps = true ∧ l = [a, b, c, d] ∨
        ∃ e rest, ps = .sep ':' :: e :: rest ∧ e.twoDigit = true ∧ trailing rest = true ∧ l = [a, b, c, d, e]) := by
  unfold isoFields at h
  split at h
  · next a b sep c d ps =>
      split_ifs at h with hiso ht
      · exact ⟨a, b, sep, c, d, ps, rfl, hiso.1, hiso.2, .inl ⟨ht, (Option.some.inj h).symm⟩⟩
      · split at h
        · next e rest =>
            split_ifs at h with he
            exact ⟨a, b, sep, c, d, _, rfl, hiso.1, hiso.2, .inr ⟨e, rest, rfl, he.1, he.2, (Option.some.inj h).symm⟩⟩
        · exact nomatch h
  · exact nomatch h

end Pattern

end Time

end KivaDb
