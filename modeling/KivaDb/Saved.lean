import KivaDb.Config
import KivaDb.Repl.Stream
import KivaDb.Time.ReadBack

namespace KivaDb

namespace JsonPath

variable {a l pre post : List Char}

theorem trim_eq (l : List Char) : trim l = (l.dropWhile isWhitespace).rdropWhile isWhitespace := rfl

theorem rdropWhile_append_white (hpost : ∀ c ∈ post, isWhitespace c = true) :
    (l ++ post).rdropWhile isWhitespace = l.rdropWhile isWhitespace := by
  rw [List.rdropWhile, List.reverse_append, List.dropWhile_append_of_pos fun c hc => hpost c (List.mem_reverse.mp hc)]
  rfl

/-- White space at the ends is trimmed. -/
theorem trim_append_white (l : List Char) (hpost : ∀ c ∈ post, isWhitespace c = true) : trim (l ++ post) = trim l := by
  rw [trim_eq, List.dropWhile_append, trim_eq]
  split
  · next hnil =>
      rw [List.dropWhile_eq_nil_iff.mpr hpost, List.isEmpty_iff.mp hnil]
  · exact rdropWhile_append_white hpost

theorem trim_white_append (l : List Char) (hpre : ∀ c ∈ pre, isWhitespace c = true) : trim (pre ++ l) = trim l := by
  rw [trim_eq, List.dropWhile_append_of_pos hpre, trim_eq]

theorem trim_sublist (l : List Char) : (trim l).Sublist l :=
  (List.rdropWhile_prefix isWhitespace _).sublist.trans (List.dropWhile_sublist _)

theorem trim_rdropWhile (l : List Char) : trim (l.rdropWhile isWhitespace) = trim l := by
  have hwhite : ∀ c ∈ l.rtakeWhile isWhitespace, isWhitespace c = true := fun c hc => List.mem_rtakeWhile_imp hc
  have h := trim_append_white (l.rdropWhile isWhitespace) hwhite
  rwa [List.rdropWhile_append_rtakeWhile, eq_comm] at h

/-- What starts and ends a line without white space stays, and what follows is trimmed at its end. -/
theorem trim_append (ha : a ≠ []) (hhead : ∀ c ∈ a.head?, isWhitespace c = false)
    (hlast : ∀ c ∈ a.getLast?, isWhitespace c = false) (l : List Char) :
    trim (a ++ l) = a ++ l.rdropWhile isWhitespace := by
  have hstart : (a ++ l).dropWhile isWhitespace = a ++ l := by
    refine dropWhile_of_head fun c hc => hhead c ?_
    rwa [List.head?_append_of_ne_nil _ ha] at hc
  rw [trim_eq, hstart, List.rdropWhile, List.reverse_append, List.dropWhile_append]
  split
  · next hnil =>
      have hback : a.reverse.dropWhile isWhitespace = a.reverse :=
        dropWhile_of_head (by rwa [List.head?_reverse])
      rw [hback, List.reverse_reverse, List.rdropWhile, List.isEmpty_iff.mp hnil, List.reverse_nil, List.append_nil]
  · rw [List.reverse_append, List.reverse_reverse, List.rdropWhile]

theorem stripped_eq_self_iff (p : Char → Bool) : (l.dropWhile p).rdropWhile p = l ↔
    (∀ c ∈ l.head?, p c = false) ∧ ∀ c ∈ l.getLast?, p c = false := by
  have hhead : l.dropWhile p = l ↔ ∀ c ∈ l.head?, p c = false := by
    cases l with
    | nil => simp
    | cons c cs => simp [List.dropWhile_eq_self_iff]
  have hlast : l.rdropWhile p = l ↔ ∀ c ∈ l.getLast?, p c = false := by
    rw [List.rdropWhile_eq_self_iff]
    constructor
    · intro h c hc
      obtain ⟨hne, rfl⟩ := List.mem_getLast?_eq_getLast hc
      exact Bool.eq_false_iff.mpr (h hne)
    · intro h hne
      exact Bool.eq_false_iff.mp (h _ (List.getLast_mem_getLast? hne))
  rw [← hhead, ← hlast]
  constructor
  · intro h
    have hsub : l.Sublist (l.dropWhile p) := by
      nth_rewrite 1 [← h]
      exact (List.rdropWhile_prefix p _).sublist
    have hdrop := (List.dropWhile_sublist p).antisymm hsub
    exact ⟨hdrop, by rwa [hdrop] at h⟩
  · rintro ⟨hdrop, hrdrop⟩
    rw [hdrop, hrdrop]

end JsonPath

namespace Config

open JsonPath (isWhitespace trim)

variable {l v : List Char}

theorem prefix_cutComment (l : List Char) : cutComment l <+: l := by
  fun_induction cutComment l with
  | case1 rest => exact List.nil_prefix
  | case2 c s hnot ih => exact List.prefix_cons_inj c |>.mpr ih
  | case3 => exact List.nil_prefix

theorem cutComment_eq_self_iff : cutComment l = l ↔ ¬ [' ', '#'] <:+: l := by
  fun_induction cutComment l with
  | case1 rest =>
      refine iff_of_false (fun h => nomatch h) (fun h => h ?_)
      exact ⟨[], rest, rfl⟩
  | case2 c s hnot ih =>
      rw [List.cons.injEq, and_iff_right rfl, ih, List.infix_cons_iff, not_or, iff_and_self]
      rintro - ⟨r, hr⟩
      obtain ⟨rfl, rfl⟩ := List.cons.inj hr
      exact hnot r rfl rfl
  | case3 => simp

theorem unquoted_sublist (l : List Char) : (unquoted l).Sublist l :=
  (List.rdropWhile_prefix (· = '"') _).sublist.trans (List.dropWhile_sublist _)

theorem unquoted_eq_self_iff : unquoted l = l ↔ (∀ c ∈ l.head?, c ≠ '"') ∧ ∀ c ∈ l.getLast?, c ≠ '"' := by
  have h := JsonPath.stripped_eq_self_iff (l := l) (· = '"')
  simp only [decide_eq_false_iff_not] at h
  exact h

/-- The value that a line gives. -/
def readBack (v : List Char) : List Char := unquoted (trim (cutComment (trim v)))

/-- A value that is not changed by the file: nothing in it ends a line or starts a comment, and no quote or white space
surrounds it. -/
structure Plain (v : List Char) : Prop where
  line : '\n' ∉ v
  comment : ¬ [' ', '#'] <:+: v
  head : ∀ c ∈ v.head?, c ≠ '"' ∧ isWhitespace c = false
  last : ∀ c ∈ v.getLast?, c ≠ '"' ∧ isWhitespace c = false

local instance decidableChars (p : Char → Prop) [DecidablePred p] (l : List Char) : Decidable (∀ c ∈ l, p c) :=
  List.decidableBAll p l

local instance decidableChar (p : Char → Prop) [DecidablePred p] (o : Option Char) : Decidable (∀ c ∈ o, p c) :=
  Option.decidableForallMem o

instance (v : List Char) : Decidable (Plain v) :=
  decidable_of_iff ('\n' ∉ v ∧ ¬ [' ', '#'] <:+: v ∧ (∀ c ∈ v.head?, c ≠ '"' ∧ isWhitespace c = false) ∧
    ∀ c ∈ v.getLast?, c ≠ '"' ∧ isWhitespace c = false)
    ⟨fun ⟨hl, hc, hh, ht⟩ => ⟨hl, hc, hh, ht⟩, fun h => ⟨h.line, h.comment, h.head, h.last⟩⟩

theorem readBack_sublist (v : List Char) : (readBack v).Sublist v :=
  (unquoted_sublist _).trans <| (JsonPath.trim_sublist _).trans <| (prefix_cutComment _).sublist.trans <|
    JsonPath.trim_sublist _

theorem readBack_eq_self_iff (hline : '\n' ∉ v) : readBack v = v ↔ Plain v := by
  have hends : trim v = v ↔ (∀ c ∈ v.head?, isWhitespace c = false) ∧ ∀ c ∈ v.getLast?, isWhitespace c = false :=
    JsonPath.stripped_eq_self_iff isWhitespace
  constructor
  · intro h
    -- No step drops anything, as the last one gives the whole value.
    have hcut := JsonPath.trim_sublist (cutComment (trim v))
    have hstart := (prefix_cutComment (trim v)).sublist
    have htrim : trim v = v := by
      refine (JsonPath.trim_sublist v).antisymm ?_
      nth_rewrite 1 [← h]
      exact (unquoted_sublist _).trans (hcut.trans hstart)
    rw [htrim] at hcut hstart
    have hcomment : cutComment v = v := by
      refine hstart.antisymm ?_
      nth_rewrite 1 [← h]
      rw [readBack, htrim]
      exact (unquoted_sublist _).trans hcut
    rw [readBack, htrim, hcomment, htrim, unquoted_eq_self_iff] at h
    obtain ⟨hhead, hlast⟩ := hends.mp htrim
    exact ⟨hline, cutComment_eq_self_iff.mp hcomment, fun c hc => ⟨h.1 c hc, hhead c hc⟩, fun c hc => ⟨h.2 c hc, hlast c hc⟩⟩
  · intro h
    have htrim : trim v = v := hends.mpr ⟨fun c hc => (h.head c hc).2, fun c hc => (h.last c hc).2⟩
    rw [readBack, htrim, cutComment_eq_self_iff.mpr h.comment, htrim, unquoted_eq_self_iff]
    exact ⟨fun c hc => (h.head c hc).1, fun c hc => (h.last c hc).1⟩

/-- What a name of a section or of a key is made of. -/
def isNameChar (c : Char) : Bool := c.isAlphanum || c = '_' || c = '-' || c = '.'

variable {k : List Char} {s : String × Config}

theorem bounds_of_isNameChar {c : Char} (h : isNameChar c = true) :
    45 ≤ c.toNat ∧ c.toNat ≤ 122 ∧ c ≠ '=' ∧ c ≠ '[' ∧ c ≠ ';' := by
  have hother : c ≠ '=' ∧ c ≠ '[' ∧ c ≠ ';' := by
    refine ⟨?_, ?_, ?_⟩ <;> (rintro rfl; exact absurd h (by decide))
  refine and_assoc.mp ⟨?_, hother⟩
  have halnum : c.isAlphanum = ((decide (65 ≤ c.val ∧ c.val ≤ 90) || decide (97 ≤ c.val) && decide (c.val ≤ 122)) ||
      decide (48 ≤ c.val) && decide (c.val ≤ 57)) := rfl
  simp only [isNameChar, halnum, Bool.or_eq_true, Bool.and_eq_true, decide_eq_true_eq, UInt32.le_iff_toNat_le] at h
  rcases h with ((((⟨hlo, hhi⟩ | ⟨hlo, hhi⟩) | ⟨hlo, hhi⟩) | rfl) | rfl) | rfl
  case inl.inl.inl.inl.inl => exact ⟨Nat.le_trans (by decide) hlo, Nat.le_trans hhi (by decide)⟩
  case inl.inl.inl.inl.inr => exact ⟨Nat.le_trans (by decide) hlo, Nat.le_trans hhi (by decide)⟩
  case inl.inl.inl.inr => exact ⟨Nat.le_trans (by decide) hlo, Nat.le_trans hhi (by decide)⟩
  all_goals decide

theorem dark_of_isNameChar {c : Char} (h : isNameChar c = true) : isWhitespace c = false := by
  obtain ⟨hlo, hhi, -⟩ := bounds_of_isNameChar h
  simp [isWhitespace]
  omega

theorem takeLine_entry (hk : k ≠ []) (hname : ∀ c ∈ k, isNameChar c = true) (v : List Char) :
    takeLine s (k ++ ' ' :: '=' :: ' ' :: v) = (s.1, s.2.insert s.1 (String.ofList k) (String.ofList (readBack v))) := by
  have hdark c (hc : c ∈ k) : isWhitespace c = false := dark_of_isNameChar (hname c hc)
  have hline : trim (k ++ ' ' :: '=' :: ' ' :: v) = k ++ ' ' :: '=' :: (' ' :: v).rdropWhile isWhitespace := by
    have h := JsonPath.trim_append (a := k ++ [' ', '=']) (by simp) (fun c hc => ?_) (fun c hc => ?_) (' ' :: v)
    · simpa using h
    · rw [List.head?_append_of_ne_nil _ hk] at hc
      exact hdark c (List.mem_of_mem_head? hc)
    · simp at hc
      rw [← hc]
      rfl
  have hnot : ∀ c ∈ k, c ≠ '=' := fun c hc => (bounds_of_isNameChar (hname c hc)).2.2.1
  have hkey : (k ++ ' ' :: '=' :: (' ' :: v).rdropWhile isWhitespace).takeWhile (· ≠ '=') = k ++ [' '] := by
    rw [List.takeWhile_append_of_pos (by simpa using hnot)]
    simp
  have hvalue : (k ++ ' ' :: '=' :: (' ' :: v).rdropWhile isWhitespace).dropWhile (· ≠ '=') =
      '=' :: (' ' :: v).rdropWhile isWhitespace := by
    rw [List.dropWhile_append_of_pos (by simpa using hnot)]
    simp
  have htrim : trim (k ++ [' ']) = k := by
    rw [JsonPath.trim_append_white k (by simp [isWhitespace]), JsonPath.trim_of_dark hdark]
  have hread : trim ((' ' :: v).rdropWhile isWhitespace) = trim v := by
    rw [JsonPath.trim_rdropWhile, ← List.singleton_append, JsonPath.trim_white_append v (by simp [isWhitespace])]
  rw [takeLine, hline]
  dsimp only
  obtain ⟨c, cs, rfl⟩ := List.exists_cons_of_ne_nil hk
  obtain ⟨hlo, -, -, hopen, hsemi⟩ := bounds_of_isNameChar (hname c List.mem_cons_self)
  have hhash : c ≠ '#' := by
    rintro rfl
    exact absurd hlo (by decide)
  have hheader : header (c :: cs ++ ' ' :: '=' :: (' ' :: v).rdropWhile isWhitespace) = none := by
    rw [List.cons_append, header]
    exact fun r hr => hopen (List.cons.inj hr).1
  rw [if_neg (by simp [hhash, hsemi]), hheader]
  dsimp only
  rw [if_pos (by simp), hkey, hvalue, htrim, List.tail_cons, hread]
  rfl

theorem takeLine_header (hname : ∀ c ∈ k, isNameChar c = true) (hlower : (String.ofList k).toLower = String.ofList k) :
    takeLine s ('[' :: (k ++ [']'])) = (String.ofList k, s.2.enter (String.ofList k)) := by
  have hline : trim ('[' :: (k ++ [']'])) = '[' :: (k ++ [']']) := by
    refine JsonPath.trim_of_ends (fun c hc => ?_) (fun c hc => ?_)
    · rw [← Option.some.inj hc]
      rfl
    · rw [← List.cons_append, List.getLast?_concat] at hc
      rw [← Option.some.inj hc]
      rfl
  have hheader : header ('[' :: (k ++ [']'])) = some k := by
    rw [header, if_pos (List.getLast?_concat), List.dropLast_concat]
  rw [takeLine, hline]
  dsimp only
  rw [if_neg (by simp), hheader]
  dsimp only
  rw [JsonPath.trim_of_dark fun c hc => dark_of_isNameChar (hname c hc), hlower]

theorem takeLine_return (l : List Char) : takeLine s (if l.getLast? = some '\r' then l.dropLast else l) = takeLine s l := by
  split
  · next hlast =>
      obtain ⟨m, rfl⟩ := List.getLast?_eq_some_iff.mp hlast
      rw [List.dropLast_concat, takeLine, takeLine, JsonPath.trim_append_white m (by simp [isWhitespace])]
  · rfl

theorem takeLine_nil : takeLine s [] = s := rfl

theorem parse_eq (home : Path) (l : List Char) : parse home l = ((l.splitOn '\n').foldl takeLine ("", ⟨home, ∅⟩)).2 := by
  rw [parse, lines, List.foldl_map]
  simp only [takeLine_return]
  split
  · next hlast =>
      obtain ⟨m, hm⟩ := List.getLast?_eq_some_iff.mp hlast
      rw [hm, List.dropLast_concat, List.foldl_append, List.foldl_cons, takeLine_nil, List.foldl_nil]
  · rfl

/-- The value of a text once the file is read. -/
def back (v : String) : String := String.ofList (readBack v.toList)

def entryLine (p : String × String) : List Char := p.1.toList ++ ' ' :: '=' :: ' ' :: p.2.toList

def names (c : Config) : List String := c.sections.keys.insertionSort fun a b => order.idxOf a ≤ order.idxOf b

def pairs (c : Config) (name : String) : List (String × String) := (c.sections.getD name ∅).toList

def sectionLines (c : Config) (name : String) : List (List Char) :=
  [] :: ('[' :: (name.toList ++ [']'])) :: (c.pairs name).map entryLine

/-- The lines of the file. -/
def written (c : Config) : List (List Char) := "# KivaDB configuration".toList :: c.names.flatMap c.sectionLines

theorem toList_entry (p : String × String) : (s!"{p.1} = {p.2}\n").toList = entryLine p ++ ['\n'] := by
  have hstring (s : String) : toString s = s := rfl
  simp [entryLine, hstring]

theorem toList_section (c : Config) (name : String) :
    (s!"\n[{name}]\n" ++ String.join ((c.pairs name).map fun (k, v) => s!"{k} = {v}\n")).toList =
      (c.sectionLines name).flatMap (· ++ ['\n']) := by
  have hstring (s : String) : toString s = s := rfl
  rw [String.toList_append, String.toList_join, List.flatMap_map, List.flatMap_congr fun p _ => toList_entry p]
  simp [sectionLines, List.flatMap_map, hstring]

theorem toList_text (c : Config) : c.text.toList = c.written.flatMap (· ++ ['\n']) := by
  have hsections : (String.join (c.names.map fun name =>
      s!"\n[{name}]\n" ++ String.join ((c.pairs name).map fun (k, v) => s!"{k} = {v}\n"))).toList =
      (c.names.flatMap c.sectionLines).flatMap (· ++ ['\n']) := by
    rw [String.toList_join, List.flatMap_map, List.flatMap_assoc]
    exact List.flatMap_congr fun name _ => c.toList_section name
  have htitle : "# KivaDB configuration\n".toList = "# KivaDB configuration".toList ++ ['\n'] := by decide +kernel
  rw [written, List.flatMap_cons, ← hsections, ← htitle]
  exact String.toList_append

theorem splitOn_lines {ls : List (List Char)} (h : ∀ l ∈ ls, '\n' ∉ l) :
    (ls.flatMap (· ++ ['\n'])).splitOn '\n' = ls ++ [[]] := by
  induction ls with
  | nil => rfl
  | cons l ls ih =>
      rw [List.flatMap_cons, List.append_assoc, List.singleton_append, List.splitOn_append_cons_self,
        List.splitOn_eq_singleton (h l List.mem_cons_self), ih fun m hm => h m (List.mem_cons_of_mem l hm)]
      rfl

variable {c : Config} {n name : String} {m : Std.ExtTreeMap String String compare}

def put (c : Config) (name : String) (m : Std.ExtTreeMap String String compare) : Config :=
  { c with sections := c.sections.insert name m }

theorem sections_put : (c.put name m).sections[n]? = if n = name then some m else c.sections[n]? := by
  rw [put, Std.ExtTreeMap.getElem?_insert]
  exact if_congr (Std.LawfulEqCmp.compare_eq_iff_eq.trans eq_comm) rfl rfl

theorem enter_of_notMem (h : name ∉ c.sections) : c.enter name = c.put name ∅ := by
  refine congrArg (Config.mk c.home) (Std.ExtTreeMap.ext_getElem? fun n => ?_)
  rw [Std.ExtTreeMap.getElem?_insertIfNew, Std.ExtTreeMap.getElem?_insert]
  exact if_congr (and_iff_left h) rfl rfl

theorem insert_eq_put (k v : String) : c.insert name k v = c.put name ((c.sections.getD name ∅).insert k v) := rfl

theorem put_put (m' : Std.ExtTreeMap String String compare) : (c.put name m).put name m' = c.put name m' := by
  refine congrArg (Config.mk c.home) (Std.ExtTreeMap.ext_getElem? fun n => ?_)
  have h : ((c.put name m).put name m').sections[n]? = (c.put name m').sections[n]? := by
    rw [sections_put, sections_put, sections_put]
    split <;> rfl
  exact h

theorem put_insert (k v : String) : (c.put name m).insert name k v = c.put name (m.insert k v) := by
  have hm : (c.put name m).sections.getD name ∅ = m := Std.ExtTreeMap.getD_insert_self
  rw [insert_eq_put, put_put, hm]

def IsName (n : String) : Prop := n ≠ "" ∧ (∀ c ∈ n.toList, isNameChar c = true)

/-- The values of a section as they are read. -/
def readPairs (m : Std.ExtTreeMap String String compare) (ps : List (String × String)) : Std.ExtTreeMap String String compare :=
  ps.foldl (fun m p => m.insert p.1 (back p.2)) m

theorem foldl_entryLine {ps : List (String × String)} (hps : ∀ p ∈ ps, IsName p.1) :
    (ps.map entryLine).foldl takeLine (name, c.put name m) = (name, c.put name (readPairs m ps)) := by
  induction ps generalizing m with
  | nil => rfl
  | cons p ps ih =>
      obtain ⟨hne, hname⟩ := hps p List.mem_cons_self
      have hline : takeLine (name, c.put name m) (entryLine p) = (name, c.put name (m.insert p.1 (back p.2))) := by
        rw [entryLine, takeLine_entry (by simpa using hne) hname, String.ofList_toList, put_insert]
        rfl
      rw [List.map_cons, List.foldl_cons, hline, ih fun q hq => hps q (List.mem_cons_of_mem p hq)]
      rfl

theorem foldl_sectionLines {s : String × Config} (hname : ∀ c ∈ name.toList, isNameChar c = true) (hlower : name.toLower = name)
    (hps : ∀ p ∈ c.pairs name, IsName p.1) (hnew : name ∉ s.2.sections) :
    (c.sectionLines name).foldl takeLine s = (name, s.2.put name (readPairs ∅ (c.pairs name))) := by
  have hheader := takeLine_header (s := s) hname (by rwa [String.ofList_toList])
  rw [String.ofList_toList] at hheader
  rw [sectionLines, List.foldl_cons, takeLine_nil, List.foldl_cons, hheader, enter_of_notMem hnew, foldl_entryLine hps]

theorem foldl_flatMap_sectionLines {ns : List String} {s : String × Config} (hnodup : ns.Nodup) (hnew : ∀ n ∈ ns, n ∉ s.2.sections)
    (hname : ∀ n ∈ ns, ∀ c ∈ n.toList, isNameChar c = true) (hlower : ∀ n ∈ ns, n.toLower = n)
    (hps : ∀ n ∈ ns, ∀ p ∈ c.pairs n, IsName p.1) :
    ((ns.flatMap c.sectionLines).foldl takeLine s).2.home = s.2.home ∧
      ∀ n, ((ns.flatMap c.sectionLines).foldl takeLine s).2.sections[n]? =
        if n ∈ ns then some (readPairs ∅ (c.pairs n)) else s.2.sections[n]? := by
  induction ns generalizing s with
  | nil => exact ⟨rfl, fun n => rfl⟩
  | cons name ns ih =>
      have hmem : name ∈ name :: ns := List.mem_cons_self
      have hrest {n : String} (hn : n ∈ ns) : n ∈ name :: ns := List.mem_cons_of_mem name hn
      obtain ⟨hnot, hnodup⟩ := List.nodup_cons.mp hnodup
      rw [List.flatMap_cons, List.foldl_append,
        foldl_sectionLines (hname name hmem) (hlower name hmem) (hps name hmem) (hnew name hmem)]
      obtain ⟨hhome, hsections⟩ := @ih (name, s.2.put name (readPairs ∅ (c.pairs name))) hnodup
        (fun n hn => by
          have hne : n ≠ name := by
            rintro rfl
            exact hnot hn
          rw [put, Std.ExtTreeMap.mem_insert, Std.LawfulEqCmp.compare_eq_iff_eq]
          rintro (heq | hin)
          · exact hne heq.symm
          · exact hnew n (hrest hn) hin)
        (fun n hn => hname n (hrest hn)) (fun n hn => hlower n (hrest hn)) fun n hn => hps n (hrest hn)
      refine ⟨hhome, fun n => ?_⟩
      rw [hsections, sections_put]
      by_cases hn : n = name
      · rw [if_pos hn, hn, if_pos hmem]
        split <;> rfl
      · rw [if_neg hn]
        exact if_congr (by simp [hn]) rfl rfl

theorem readPairs_eq (ps : List (String × String)) : readPairs m ps = m.insertMany (ps.map fun p => (p.1, back p.2)) := by
  induction ps generalizing m with
  | nil => exact Std.ExtTreeMap.insertMany_nil.symm
  | cons p ps ih =>
      rw [List.map_cons, Std.ExtTreeMap.insertMany_cons, ← ih]
      rfl

theorem readPairs_toList (m : Std.ExtTreeMap String String compare) : readPairs ∅ m.toList = m.map fun _ v => back v := by
  refine Std.ExtTreeMap.ext_getElem? fun k => ?_
  rw [readPairs_eq, Std.ExtTreeMap.getElem?_map]
  have hdistinct : (m.toList.map fun p => (p.1, back p.2)).Pairwise (fun a b => ¬ compare a.1 b.1 = .eq) :=
    List.pairwise_map.mpr Std.ExtTreeMap.distinct_keys_toList
  cases hk : m[k]? with
  | some v =>
      refine Std.ExtTreeMap.getElem?_insertMany_list_of_mem Std.ReflCmp.compare_self hdistinct (List.mem_map.mpr ⟨(k, v), ?_, rfl⟩)
      exact Std.ExtTreeMap.mem_toList_iff_getElem?_eq_some.mpr hk
  | none =>
      rw [Std.ExtTreeMap.getElem?_insertMany_list_of_contains_eq_false]
      · rfl
      · rw [List.map_map, ← Bool.not_eq_true, List.contains_iff_mem, List.mem_map]
        rintro ⟨p, hp, rfl⟩
        exact nomatch hk.symm.trans (Std.ExtTreeMap.mem_toList_iff_getElem?_eq_some.mp hp)

/-- The value held for a key of a section. -/
def valueAt (c : Config) (section_ key : String) : Option String := (c.sections.getD section_ ∅)[key]?

/-- A section or a key of `kiva.conf`: those known, and the workspaces. -/
def isSection (n : String) : Bool := known.any (·.1 = n) || n = "workspaces"

def isSetting (n k : String) : Bool :=
  known.any (fun r => r.1 = n && r.2.1 = k) || n = "workspaces" && Repl.validWorkspaceName k

structure Named (c : Config) : Prop where
  sections : ∀ n ∈ c.sections, isSection n = true
  keys : ∀ n k v, c.valueAt n k = some v → isSetting n k = true

theorem lower_of_isSection (h : isSection n = true) : (∀ c ∈ n.toList, isNameChar c = true) ∧ n.toLower = n := by
  have hknown : ∀ r ∈ known, ∀ c ∈ r.1.toList, isNameChar c = true ∧ c.toLower = c := by decide +kernel
  rw [isSection, Bool.or_eq_true, List.any_eq_true, decide_eq_true_eq] at h
  rcases h with ⟨r, hr, hn⟩ | rfl
  · rw [← of_decide_eq_true hn]
    exact ⟨fun c hc => (hknown r hr c hc).1, toLower_eq_self fun c hc => (hknown r hr c hc).2⟩
  · have hspaces : ∀ c ∈ "workspaces".toList, isNameChar c = true ∧ c.toLower = c := by decide
    exact ⟨fun c hc => (hspaces c hc).1, toLower_eq_self fun c hc => (hspaces c hc).2⟩

theorem isNameChar_of_valid {k : List Char} (h : Repl.validNamePart k = true) : k ≠ [] ∧ ∀ c ∈ k, isNameChar c = true := by
  rw [Repl.validNamePart, Bool.and_eq_true, Bool.and_eq_true, List.all_eq_true] at h
  refine ⟨by simpa using h.1.1, fun c hc => ?_⟩
  rw [isNameChar, h.2 c hc, Bool.true_or]

theorem isName_of_workspace {k : String} (h : Repl.validWorkspaceName k = true) : IsName k := by
  have hsplit := List.takeWhile_append_dropWhile (p := (· ≠ '.')) (l := k.toList)
  have hdrop := congrArg (List.drop (k.toList.takeWhile (· ≠ '.')).length) hsplit
  rw [List.drop_left' rfl] at hdrop
  rw [Repl.validWorkspaceName, ← hdrop] at h
  split at h
  · obtain ⟨hne, hc⟩ := isNameChar_of_valid h
    exact ⟨fun hk => hne (by rw [hk]; rfl), hc⟩
  · next c rest heq =>
      rw [Bool.and_eq_true] at h
      have hdot : c = '.' := by
        have hhead := List.head?_dropWhile_not (· ≠ '.') k.toList
        rw [heq] at hhead
        simpa using hhead
      have hchars : ∀ c ∈ k.toList, isNameChar c = true := by
        rw [← hsplit, heq, hdot]
        intro a ha
        rcases List.mem_append.mp ha with ha | ha
        · exact (isNameChar_of_valid h.1).2 a ha
        · rcases List.mem_cons.mp ha with rfl | ha
          · rfl
          · exact (isNameChar_of_valid h.2).2 a ha
      refine ⟨?_, hchars⟩
      rintro rfl
      exact nomatch heq

theorem isName_of_isSetting {k : String} (h : isSetting n k = true) : IsName k := by
  have hknown : ∀ r ∈ known, r.2.1 ≠ "" ∧ ∀ c ∈ r.2.1.toList, isNameChar c = true := by decide +kernel
  rw [isSetting, Bool.or_eq_true, List.any_eq_true, Bool.and_eq_true] at h
  rcases h with ⟨r, hr, hn⟩ | ⟨-, hk⟩
  · rw [Bool.and_eq_true] at hn
    rw [← of_decide_eq_true hn.2]
    exact hknown r hr
  · exact isName_of_workspace hk

theorem mem_names : n ∈ c.names ↔ n ∈ c.sections := by
  rw [names, List.mem_insertionSort, Std.ExtTreeMap.mem_keys]

theorem nodup_names : c.names.Nodup := (List.perm_insertionSort _ _).nodup_iff.mpr Std.ExtTreeMap.nodup_keys

theorem valueAt_of_mem_pairs {p : String × String} : p ∈ c.pairs n ↔ c.valueAt n p.1 = some p.2 :=
  Std.ExtTreeMap.mem_toList_iff_getElem?_eq_some

theorem parse_text {c : Config} (hc : c.Named) (hline : ∀ n k v, c.valueAt n k = some v → '\n' ∉ v.toList) :
    parse c.home c.text.toList = ⟨c.home, c.sections.map fun _ m => m.map fun _ v => back v⟩ := by
  have hsection : ∀ n ∈ c.names, (∀ c ∈ n.toList, isNameChar c = true) ∧ n.toLower = n :=
    fun n hn => lower_of_isSection (hc.sections n (mem_names.mp hn))
  have hpairs : ∀ n ∈ c.names, ∀ p ∈ c.pairs n, IsName p.1 :=
    fun n _ p hp => isName_of_isSetting (hc.keys n p.1 p.2 (valueAt_of_mem_pairs.mp hp))
  have hwritten : ∀ l ∈ c.written, '\n' ∉ l := by
    intro l hl
    rcases List.mem_cons.mp hl with rfl | hl
    · decide +kernel
    · obtain ⟨n, hn, hl⟩ := List.mem_flatMap.mp hl
      rcases List.mem_cons.mp hl with rfl | hl
      · exact List.not_mem_nil
      · rcases List.mem_cons.mp hl with rfl | hl
        · have hnot : '\n' ∉ n.toList := fun hmem => absurd ((hsection n hn).1 _ hmem) (by decide)
          simpa using hnot
        · obtain ⟨p, hp, rfl⟩ := List.mem_map.mp hl
          have hkey : '\n' ∉ p.1.toList := fun hmem => absurd ((hpairs n hn p hp).2 _ hmem) (by decide)
          have hvalue := hline n p.1 p.2 (valueAt_of_mem_pairs.mp hp)
          simpa [entryLine] using ⟨hkey, hvalue⟩
  rw [parse_eq, toList_text, splitOn_lines hwritten, List.foldl_append, List.foldl_cons, takeLine_nil, List.foldl_nil, written,
    List.foldl_cons]
  have htitle : takeLine ("", ⟨c.home, ∅⟩) "# KivaDB configuration".toList = ("", ⟨c.home, ∅⟩) := by
    have hhash : (trim "# KivaDB configuration".toList).head? = some '#' := by decide +kernel
    rw [takeLine]
    exact if_pos (Or.inr (Or.inl hhash))
  rw [htitle]
  obtain ⟨hhome, hsections⟩ := foldl_flatMap_sectionLines (s := ("", ⟨c.home, ∅⟩)) (c := c) nodup_names
    (fun n _ => Std.ExtTreeMap.not_mem_empty) (fun n hn => (hsection n hn).1) (fun n hn => (hsection n hn).2) hpairs
  refine congr (congrArg Config.mk hhome) (Std.ExtTreeMap.ext_getElem? fun n => ?_)
  rw [hsections, Std.ExtTreeMap.getElem?_map, pairs, readPairs_toList]
  by_cases hn : n ∈ c.sections
  · rw [if_pos (mem_names.mpr hn), Std.ExtTreeMap.getElem?_eq_some_getD hn]
    rfl
  · rw [if_neg (fun h => hn (mem_names.mp h)), Std.ExtTreeMap.getElem?_eq_none hn]
    rfl

theorem valueAt_empty (home : Path) (n k : String) : valueAt ⟨home, ∅⟩ n k = none := by
  rw [valueAt, Std.ExtTreeMap.getD_empty, Std.ExtTreeMap.getElem?_empty]

theorem valueAt_enter (k : String) : (c.enter name).valueAt n k = c.valueAt n k := by
  rw [valueAt, enter, Std.ExtTreeMap.getD_insertIfNew]
  split
  · next h =>
      rw [← Std.LawfulEqCmp.compare_eq_iff_eq.mp h.1, valueAt, Std.ExtTreeMap.getD_eq_fallback h.2]
  · rfl

theorem valueAt_insert (key v k : String) : (c.insert name key v).valueAt n k =
    if n = name ∧ k = key then some v else c.valueAt n k := by
  rw [valueAt, getD_insert]
  by_cases hn : n = name
  · rw [if_pos hn.symm, Std.ExtTreeMap.getElem?_insert, hn]
    exact if_congr (by rw [Std.LawfulEqCmp.compare_eq_iff_eq, eq_comm]; simp) rfl rfl
  · rw [if_neg (Ne.symm hn), if_neg fun h => hn h.1, valueAt]

theorem sections_of_valueAt {k v : String} (h : c.valueAt n k = some v) :
    ∃ m, c.sections[n]? = some m ∧ m[k]? = some v := by
  by_cases hn : n ∈ c.sections
  · exact ⟨_, Std.ExtTreeMap.getElem?_eq_some_getD hn, h⟩
  · rw [valueAt, Std.ExtTreeMap.getD_eq_fallback hn] at h
    exact nomatch h

theorem map_back_eq_self_iff : (⟨c.home, c.sections.map fun _ m => m.map fun _ v => back v⟩ : Config) = c ↔
    ∀ n k v, c.valueAt n k = some v → back v = v := by
  constructor
  · intro h n k v hv
    obtain ⟨m, hm, hk⟩ := sections_of_valueAt hv
    have hsame : (c.sections.map fun _ m => m.map fun _ v => back v)[n]? = c.sections[n]? :=
      congrArg (fun d : Config => d.sections[n]?) h
    rw [Std.ExtTreeMap.getElem?_map, hm, Option.map_some] at hsame
    have hvalue := congrArg (·[k]?) (Option.some.inj hsame)
    rw [Std.ExtTreeMap.getElem?_map, hk] at hvalue
    exact Option.some.inj hvalue
  · intro h
    refine congrArg (Config.mk c.home) (Std.ExtTreeMap.ext_getElem? fun n => ?_)
    rw [Std.ExtTreeMap.getElem?_map]
    cases hm : c.sections[n]? with
    | none => rfl
    | some m =>
        refine congrArg some (Std.ExtTreeMap.ext_getElem? fun k => ?_)
        rw [Std.ExtTreeMap.getElem?_map]
        cases hk : m[k]? with
        | none => rfl
        | some v =>
            refine congrArg some (h n k v ?_)
            rw [valueAt, Std.ExtTreeMap.getD_eq_getD_getElem?, hm]
            exact hk

/-- Every value is one that the file does not change. -/
def AllPlain (c : Config) : Prop := ∀ n k v, c.valueAt n k = some v → Plain v.toList

theorem back_eq_self_iff {v : String} (hline : '\n' ∉ v.toList) : back v = v ↔ Plain v.toList := by
  rw [← readBack_eq_self_iff hline, back, ← String.toList_inj, String.toList_ofList]

/-- No value that is read holds the end of a line. -/
theorem not_mem_valueAt_parse {home : Path} {l : List Char} {k v : String} (h : (parse home l).valueAt n k = some v) :
    '\n' ∉ v.toList := by
  have hstep (s : String × Config) (line : List Char) (hline : '\n' ∉ line)
      (hs : ∀ n k v, s.2.valueAt n k = some v → '\n' ∉ v.toList) :
      ∀ n k v, (takeLine s line).2.valueAt n k = some v → '\n' ∉ v.toList := by
    rw [takeLine]
    dsimp only
    split
    · exact hs
    · split
      · intro n k v hv
        rw [valueAt_enter] at hv
        exact hs n k v hv
      · split
        · intro n k v hv
          rw [valueAt_insert] at hv
          split at hv
          · rw [← Option.some.inj hv, String.toList_ofList]
            refine fun hmem => hline ?_
            have htail := (readBack_sublist _).subset hmem
            exact (JsonPath.trim_sublist line).subset ((List.dropWhile_sublist _).subset (List.mem_of_mem_tail htail))
          · exact hs n k v hv
        · exact hs
  have hfold (ls : List (List Char)) (s : String × Config) (hls : ∀ line ∈ ls, '\n' ∉ line)
      (hs : ∀ n k v, s.2.valueAt n k = some v → '\n' ∉ v.toList) :
      ∀ n k v, (ls.foldl takeLine s).2.valueAt n k = some v → '\n' ∉ v.toList := by
    induction ls generalizing s with
    | nil => exact hs
    | cons line ls ih =>
        exact ih _ (fun m hm => hls m (List.mem_cons_of_mem line hm)) (hstep s line (hls line List.mem_cons_self) hs)
  refine hfold (lines l) ("", ⟨home, ∅⟩) (fun line => not_mem_lines) (fun n k v hv => ?_) n k v h
  exact nomatch hv.symm.trans (valueAt_empty home n k)

/-- The file that is saved gives the configuration back. -/
def ReadsBack (c : Config) : Prop := parse c.home c.text.toList = c

theorem readsBack_iff (hc : c.Named) : c.ReadsBack ↔ c.AllPlain := by
  constructor
  · intro h n k v hv
    have hline (n k v : String) (hv : c.valueAt n k = some v) : '\n' ∉ v.toList := by
      rw [← (h : parse c.home c.text.toList = c)] at hv
      exact not_mem_valueAt_parse hv
    rw [ReadsBack, parse_text hc hline, map_back_eq_self_iff] at h
    exact (back_eq_self_iff (hline n k v hv)).mp (h n k v hv)
  · intro h
    rw [ReadsBack, parse_text hc fun n k v hv => (h n k v hv).line, map_back_eq_self_iff]
    exact fun n k v hv => (back_eq_self_iff (h n k v hv).line).mpr (h n k v hv)

/-- Removes a key, to be saved when it was there. -/
def remove (c : Config) (section_ key : String) : Config × Bool :=
  match c.sections[section_]? with
  | some m => if key ∈ m then (c.put section_ (m.erase key), true) else (c, false)
  | none => (c, false)

/-- Gives a key of a section another name, to be saved when it was there. -/
def rename (c : Config) (section_ from_ to_ : String) : Config :=
  let c := c.enter section_
  let m := c.sections.getD section_ ∅
  match m[from_]? with
  | some v => c.put section_ ((m.erase from_).insert to_ v)
  | none => c

inductive Edit where
  | set (section_ key value : String)
  | remove (section_ key : String)
  | rename (section_ from_ to_ : String)

section Edits

variable [Chrono] [Formats]

def Edit.apply (e : Edit) (c : Config) : Result Config :=
  match e with
  | .set section_ key value => c.set section_ key value
  | .remove section_ key => .ok (c.remove section_ key).1
  | .rename section_ from_ to_ => .ok (c.rename section_ from_ to_)

/-- The configuration after edits that all succeed. -/
def run (c : Config) (edits : List Edit) : Result Config := edits.foldlM (fun c e => e.apply c) c

end Edits

/-- Known keys and valid names of workspaces. -/
def Edit.named : Edit → Bool
  | .set section_ key _ => isSetting section_ key
  | .remove _ _ => true
  | .rename section_ _ to_ => isSetting section_ to_

/-- The value that is set is one that the file does not change. -/
def Edit.Plain : Edit → Prop
  | .set _ _ value => Config.Plain value.toList
  | .remove _ _ => True
  | .rename _ _ _ => True

theorem isSection_of_isSetting {k : String} (h : isSetting n k = true) : isSection n = true := by
  rw [isSetting, Bool.or_eq_true, List.any_eq_true, Bool.and_eq_true] at h
  rw [isSection, Bool.or_eq_true, List.any_eq_true]
  rcases h with ⟨r, hr, hn⟩ | ⟨hn, -⟩
  · exact .inl ⟨r, hr, (Bool.and_eq_true_iff.mp hn).1⟩
  · exact .inr hn

theorem mem_put : n ∈ (c.put name m).sections ↔ n = name ∨ n ∈ c.sections := by
  rw [put, Std.ExtTreeMap.mem_insert, Std.LawfulEqCmp.compare_eq_iff_eq, eq_comm]

theorem mem_enter : n ∈ (c.enter name).sections ↔ n = name ∨ n ∈ c.sections := by
  rw [enter, Std.ExtTreeMap.mem_insertIfNew, Std.LawfulEqCmp.compare_eq_iff_eq, eq_comm]

theorem valueAt_put (k : String) : (c.put name m).valueAt n k = if n = name then m[k]? else c.valueAt n k := by
  rw [valueAt, Std.ExtTreeMap.getD_eq_getD_getElem?, sections_put]
  split
  · rfl
  · rw [← Std.ExtTreeMap.getD_eq_getD_getElem?, valueAt]

/-- What an edit does: a section is one that was there or its own, and a value was held, at that key or at the one that is
renamed, or is set. -/
structure Edited (e : Edit) (c d : Config) : Prop where
  home : d.home = c.home
  sections : ∀ n ∈ d.sections, n ∈ c.sections ∨ (∃ k v, e = .set n k v) ∨ ∃ k t, e = .rename n k t
  values : ∀ n k v, d.valueAt n k = some v →
    c.valueAt n k = some v ∨ e = .set n k v ∨ ∃ f, e = .rename n f k ∧ c.valueAt n f = some v

theorem insert_edited (name k v : String) : Edited (.set name k v) c (c.insert name k v) where
  home := rfl
  sections n hn := by
    rcases mem_put.mp hn with rfl | hn
    · exact .inr (.inl ⟨k, v, rfl⟩)
    · exact .inl hn
  values n l w hw := by
    rw [valueAt_insert] at hw
    split at hw
    · next hkey =>
        rw [hkey.1, hkey.2, ← Option.some.inj hw]
        exact .inr (.inl rfl)
    · exact .inl hw

theorem remove_edited (name k : String) : Edited (.remove name k) c (c.remove name k).1 := by
  rw [remove]
  have hsame : Edited (.remove name k) c c := ⟨rfl, fun n hn => .inl hn, fun n k v hv => .inl hv⟩
  split
  · next m hm =>
      split
      · refine ⟨rfl, fun n hn => ?_, fun n l v hv => ?_⟩
        · refine (mem_put.mp hn).elim (fun h => .inl ?_) .inl
          rw [h, Std.ExtTreeMap.mem_iff_isSome_getElem?, hm]
          rfl
        · rw [valueAt_put] at hv
          split at hv
          · next hn =>
              rw [Std.ExtTreeMap.getElem?_erase] at hv
              split at hv
              · exact nomatch hv
              · left
                rw [valueAt, Std.ExtTreeMap.getD_eq_getD_getElem?, hn, hm]
                exact hv
          · exact .inl hv
      · exact hsame
  · exact hsame

theorem rename_edited (name f t : String) : Edited (.rename name f t) c (c.rename name f t) := by
  rw [rename]
  have hsections {n : String} (hn : n = name ∨ n ∈ c.sections) :
      n ∈ c.sections ∨ (∃ k v, Edit.rename name f t = .set n k v) ∨ ∃ k u, Edit.rename name f t = .rename n k u := by
    rcases hn with rfl | hn
    · exact .inr (.inr ⟨f, t, rfl⟩)
    · exact .inl hn
  split
  · next v hf =>
      have hheld : c.valueAt name f = some v := by
        exact (valueAt_enter f).symm.trans hf
      refine ⟨rfl, fun n hn => hsections ?_, fun n k w hw => ?_⟩
      · exact (mem_put.mp hn).elim .inl fun h => mem_enter.mp h
      · rw [valueAt_put] at hw
        split at hw
        · next hn =>
            rw [Std.ExtTreeMap.getElem?_insert] at hw
            split at hw
            · next hk =>
                rw [← Std.LawfulEqCmp.compare_eq_iff_eq.mp hk, hn, ← Option.some.inj hw]
                exact .inr (.inr ⟨f, rfl, hheld⟩)
            · rw [Std.ExtTreeMap.getElem?_erase] at hw
              split at hw
              · exact nomatch hw
              · left
                rw [hn]
                exact (valueAt_enter k).symm.trans hw
        · rw [valueAt_enter] at hw
          exact .inl hw
  · refine ⟨rfl, fun n hn => hsections (mem_enter.mp hn), fun n k v hv => ?_⟩
    rw [valueAt_enter] at hv
    exact .inl hv

variable {d : Config} {e : Edit} {edits : List Edit}

theorem Edited.named (h : Edited e c d) (hc : c.Named) (he : e.named = true) : d.Named where
  sections n hn := by
    rcases h.sections n hn with hn | ⟨k, v, rfl⟩ | ⟨k, t, rfl⟩
    · exact hc.sections n hn
    · exact isSection_of_isSetting he
    · exact isSection_of_isSetting he
  keys n k v hv := by
    rcases h.values n k v hv with hv | rfl | ⟨f, rfl, -⟩
    · exact hc.keys n k v hv
    · exact he
    · exact he

theorem Edited.allPlain (h : Edited e c d) (hc : c.AllPlain) (he : e.Plain) : d.AllPlain := by
  intro n k v hv
  rcases h.values n k v hv with hv | rfl | ⟨f, -, hv⟩
  · exact hc n k v hv
  · exact he
  · exact hc n f v hv

section Runs

variable [Chrono] [Formats]

theorem apply_edited (h : e.apply c = .ok d) : Edited e c d := by
  cases e with
  | set name k v =>
      rw [Edit.apply, set] at h
      split at h
      · rw [← Except.ok.inj h]
        exact insert_edited name k v
      · exact nomatch h
  | remove name k =>
      rw [← Except.ok.inj h]
      exact remove_edited name k
  | rename name f t =>
      rw [← Except.ok.inj h]
      exact rename_edited name f t

theorem run_induction {p : Config → Prop} {q : Edit → Prop} (hstep : ∀ e c d, Edited e c d → q e → p c → p d)
    (h : c.run edits = .ok d) (hedits : ∀ e ∈ edits, q e) (hc : p c) : p d := by
  induction edits generalizing c with
  | nil =>
      rw [← Except.ok.inj h]
      exact hc
  | cons e edits ih =>
      rw [run, List.foldlM_cons] at h
      cases he : e.apply c with
      | error why =>
          rw [he] at h
          exact nomatch h
      | ok c₁ =>
          rw [he] at h
          exact ih h (fun e' he' => hedits e' (List.mem_cons_of_mem e he'))
            (hstep e c c₁ (apply_edited he) (hedits e List.mem_cons_self) hc)

theorem exists_of_run_append {es fs : List Edit} (h : c.run (es ++ fs) = .ok d) : ∃ c₁, c.run es = .ok c₁ ∧ c₁.run fs = .ok d := by
  rw [run, List.foldlM_append] at h
  cases hes : c.run es with
  | error why =>
      rw [run] at hes
      rw [hes] at h
      exact nomatch h
  | ok c₁ =>
      rw [run] at hes
      rw [hes] at h
      exact ⟨c₁, rfl, h⟩

theorem valueAt_of_set {k v : String} (h : (Edit.set n k v).apply c = .ok d) : d.valueAt n k = some v := by
  rw [Edit.apply, set] at h
  split at h
  · rw [← Except.ok.inj h, valueAt_insert, if_pos ⟨rfl, rfl⟩]
  · exact nomatch h

theorem plain_of_apply (h : e.apply c = .ok d) (hd : d.AllPlain) : e.Plain := by
  cases e with
  | set name k v => exact hd name k v (valueAt_of_set h)
  | remove name k => trivial
  | rename name f t => trivial

/-- What is saved is read back when every value is left as it is by the file; in every state of a run, when the values it
starts from and sets are. -/
theorem saved_iff (hc : c.Named) (hnamed : ∀ e ∈ edits, e.named = true) (h : c.run edits = .ok d) :
    (d.ReadsBack ↔ d.AllPlain) ∧
      ((∀ es d', es <+: edits → c.run es = .ok d' → d'.ReadsBack) ↔ c.AllPlain ∧ ∀ e ∈ edits, e.Plain) := by
  have hreached {es : List Edit} {d' : Config} (hes : es <+: edits) (hd' : c.run es = .ok d') : d'.ReadsBack ↔ d'.AllPlain :=
    readsBack_iff <| run_induction (fun e c d hedit he hc => hedit.named hc he) hd'
      (fun e he => hnamed e (hes.subset he)) hc
  refine ⟨hreached List.prefix_rfl h, fun hall => ⟨?_, fun e he => ?_⟩, fun ⟨hplain, hedits⟩ es d' hes hd' => ?_⟩
  · exact (hreached List.nil_prefix rfl).mp (hall [] c List.nil_prefix rfl)
  · obtain ⟨es, fs, rfl⟩ := List.append_of_mem he
    have hes : es ++ [e] <+: es ++ e :: fs := ⟨fs, by simp⟩
    rw [← List.singleton_append, ← List.append_assoc] at h
    obtain ⟨d', hd', -⟩ := exists_of_run_append h
    have hd'' := (hreached hes hd').mp (hall _ d' hes hd')
    obtain ⟨c₁, -, hlast⟩ := exists_of_run_append hd'
    rw [run, List.foldlM_cons] at hlast
    cases hc₁ : e.apply c₁ with
    | error why =>
        rw [hc₁] at hlast
        exact nomatch hlast
    | ok d₁ =>
        rw [hc₁] at hlast
        rw [← Except.ok.inj hlast] at hd''
        exact plain_of_apply hc₁ hd''
  · refine (hreached hes hd').mpr ?_
    exact run_induction (fun e c d hedit he hc => hedit.allPlain hc he) hd' (fun e he => hedits e (hes.subset he)) hplain

end Runs

/-- What holds of no setting and stays when a known one is inserted holds of a home that has no file. -/
theorem fresh_induction {p : Config → Prop} {home : Path} (hempty : p ⟨home, ∅⟩)
    (hinsert : ∀ c, c.home = home → p c → ∀ r ∈ known, p (c.insert r.1 r.2.1 (c.defaultOf r.2.1 r.2.2)))
    (henter : ∀ c, p c → p (c.enter "workspaces")) : p (fresh home) := by
  have hfold (rs : List (String × String × String)) (hrs : ∀ r ∈ rs, r ∈ known) (c : Config) (hhome : c.home = home) (hc : p c) :
      p (rs.foldl (fun (c : Config) r => c.insert r.1 r.2.1 (c.defaultOf r.2.1 r.2.2)) c) := by
    induction rs generalizing c with
    | nil => exact hc
    | cons r rs ih =>
        exact ih (fun r' hr' => hrs r' (List.mem_cons_of_mem r hr')) _ hhome (hinsert c hhome hc r (hrs r List.mem_cons_self))
  exact henter _ (hfold known (fun r hr => hr) _ rfl hempty)

theorem named_fresh (home : Path) : (fresh home).Named := by
  have hknown : ∀ r ∈ known, isSetting r.1 r.2.1 = true := by decide +kernel
  refine fresh_induction ?_ (fun c _ hc r hr => (insert_edited r.1 r.2.1 _).named hc (hknown r hr)) (fun c hc => ?_)
  · refine ⟨fun n hn => absurd hn Std.ExtTreeMap.not_mem_empty, fun n k v hv => ?_⟩
    exact nomatch hv.symm.trans (valueAt_empty home n k)
  · refine ⟨fun n hn => ?_, fun n k v hv => hc.keys n k v (valueAt_enter k ▸ hv)⟩
    rcases mem_enter.mp hn with rfl | hn
    · decide +kernel
    · exact hc.sections n hn

theorem allPlain_fresh {home : Path} (h : Plain (display (home ++ ["data"])).toList) : (fresh home).AllPlain := by
  have hknown : ∀ r ∈ known, Plain r.2.2.toList := by decide +kernel
  refine fresh_induction ?_ (fun c hhome hc r hr => (insert_edited r.1 r.2.1 _).allPlain hc ?_) (fun c hc n k v hv => ?_)
  · exact fun n k v hv => nomatch hv.symm.trans (valueAt_empty home n k)
  · rw [Edit.Plain, defaultOf, hhome]
    split
    · exact h
    · exact hknown r hr
  · exact hc n k v (valueAt_enter k ▸ hv)

section Samples

attribute [local instance] Time.wallChrono Time.wallFormats

/-- A password that a comment cuts. -/
theorem password_cut : ¬ ∀ (home : Path) (edits : List Edit) (d : Config), (∀ e ∈ edits, e.named = true) →
    (fresh home).run edits = .ok d → d.ReadsBack := by
  intro h
  have hvalid : validate "master_password" "a #b" = .ok () := by decide +kernel
  have hset : (Edit.set "replication" "master_password" "a #b").apply (fresh ["srv"]) =
      .ok ((fresh ["srv"]).insert "replication" "master_password" "a #b") := by
    rw [Edit.apply, set, hvalid]
  have hnamed : ∀ e ∈ [Edit.set "replication" "master_password" "a #b"], e.named = true := by decide +kernel
  have hback := h ["srv"] [.set "replication" "master_password" "a #b"] _ hnamed (by rw [run, List.foldlM_cons, hset]; rfl)
  have hplain := (readsBack_iff (Edited.named (apply_edited hset) (named_fresh _) (hnamed _ List.mem_cons_self))).mp hback
  exact (hplain _ _ _ (valueAt_of_set hset)).comment (by decide +kernel)

def renamed : Config := ((fresh ["srv"]).insert "workspaces" "kids" "/srv/kids").rename "workspaces" "kids" "toys"

theorem saved_iff_renamed : renamed.ReadsBack := by
  have hvalid : validate "kids" "/srv/kids" = .ok () := by decide +kernel
  have hrun : (fresh ["srv"]).run [.set "workspaces" "kids" "/srv/kids", .rename "workspaces" "kids" "toys"] = .ok renamed := by
    rw [run, List.foldlM_cons, Edit.apply, set, hvalid]
    rfl
  refine (saved_iff (named_fresh _) (by decide +kernel) hrun).2.mpr ⟨allPlain_fresh (by decide +kernel), ?_⟩ _ _
    List.prefix_rfl hrun
  rintro e he
  rcases List.mem_cons.mp he with rfl | he
  · have hplain : Plain "/srv/kids".toList := by decide +kernel
    exact hplain
  · rw [List.mem_singleton.mp he]
    trivial

end Samples

end Config

end KivaDb
