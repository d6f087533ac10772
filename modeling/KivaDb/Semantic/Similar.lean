import KivaDb.Cond
import KivaDb.Engine.Libraries

namespace KivaDb.Semantic

inductive Metric
  | cosine
  | dot
  | l2
  deriving DecidableEq

def Metric.name : Metric → String
  | cosine => "cosine"
  | dot => "dot"
  | l2 => "l2"

/-- Where `split_target` splits `<pattern>.<field>`: at the first `.` after the last
`*`. -/
def Split (pattern field : List Char) : Prop := '.' ∉ pattern.reverse.takeWhile (· ≠ '*') ∧ '*' ∉ field

/-- A similarity search: what the name of its cache is made of. -/
structure VectorQuery where
  pattern : String
  field : String
  metric : Metric
  limit : Nat
  ef : Nat
  filter : List Cond
  split : Split pattern.toList field.toList

section

variable [Chrono] [Codec]

/-- The cache the answer of a search is kept in. -/
def cacheName (q : VectorQuery) : String :=
  q.filter.foldl
    (fun name c => name ++ " where " ++ c.field ++ " " ++ c.op.symbol ++ " " ++ Codec.jsonText c.value)
    ("similar " ++ q.pattern ++ "." ++ q.field ++ " " ++ q.metric.name ++ " " ++ toString q.limit ++ " " ++ toString q.ef)

end

section

variable [Chrono] [Zones] [Codec]

/-- The conditions of a filter with their paths; `none` when a field is no path. -/
def parsed : List Cond → Option (List (List Seg × Cond))
  | [] => some []
  | c :: cs =>
      match JsonPath.parsePath c.field with
      | .error _ => none
      | .ok path => (parsed cs).map ((path, c) :: ·)

/-- Whether a document passes every condition of a filter. -/
def passes (zone : Zones.Zone) (filter : List Cond) (doc : DocView) : Option Bool :=
  (parsed filter).map fun tests => tests.all fun t => (doc.get t.1).any fun v => t.2.testLeaf zone v

end

/-- What follows a word: nothing, or a space. -/
def Ends (r : List Char) : Prop := ∀ c ∈ r.head?, c = ' '

theorem ends_nil : Ends [] := fun _ hc => nomatch hc

theorem ends_space (r : List Char) : Ends (' ' :: r) := by
  rintro c hc
  exact (Option.some.inj hc).symm

/-- Words of one text are the same up to where they end. -/
theorem word_eq {a b r s : List Char} (ha : ' ' ∉ a) (hb : ' ' ∉ b) (hr : Ends r) (hs : Ends s)
    (h : a ++ r = b ++ s) : a = b ∧ r = s := by
  induction a generalizing b with
  | nil =>
      cases b with
      | nil => exact ⟨rfl, h⟩
      | cons c b =>
          subst h
          obtain rfl := hr c rfl
          exact absurd List.mem_cons_self hb
  | cons c a ih =>
      cases b with
      | nil =>
          have hs' := hs c (by rw [List.nil_append] at h; rw [← h]; rfl)
          subst hs'
          exact absurd List.mem_cons_self ha
      | cons d b =>
          obtain ⟨rfl, htail⟩ := List.cons.inj h
          obtain ⟨rfl, rfl⟩ := ih (fun hc => ha (List.mem_cons_of_mem _ hc)) (fun hc => hb (List.mem_cons_of_mem _ hc)) htail
          exact ⟨rfl, rfl⟩

theorem split_lt {p f p' f' : List Char} (h : Split p f) (h' : Split p' f')
    (heq : p ++ '.' :: f = p' ++ '.' :: f') : ¬ p.length < p'.length := by
  intro hlt
  obtain ⟨r, hr, hf⟩ | ⟨r, hr, hf⟩ := List.append_eq_append_iff.mp heq
  · cases r with
    | nil => simp [hr] at hlt
    | cons c r =>
        obtain ⟨rfl, rfl⟩ := List.cons.inj hf
        refine h'.1 ?_
        have hstar : ∀ c ∈ r.reverse, (decide (c ≠ '*')) = true := by
          intro c hc
          refine decide_eq_true fun hstar => h.2 ?_
          rw [← hstar]
          exact List.mem_append_left _ (List.mem_reverse.mp hc)
        rw [hr, List.reverse_append, List.reverse_cons, List.append_assoc, List.takeWhile_append_of_pos hstar]
        simp
  · rw [hr, List.length_append] at hlt
    omega

theorem split_eq {p f p' f' : List Char} (h : Split p f) (h' : Split p' f')
    (heq : p ++ '.' :: f = p' ++ '.' :: f') : p = p' ∧ f = f' := by
  have hlen : p.length = p'.length := by
    have h₁ := split_lt h h' heq
    have h₂ := split_lt h' h heq.symm
    omega
  obtain ⟨hp, hf⟩ := List.append_inj heq hlen
  exact ⟨hp, (List.cons.inj hf).2⟩

theorem metric_name_injective {m m' : Metric} (h : m.name.toList = m'.name.toList) : m = m' := by
  revert h
  cases m <;> cases m' <;> decide

theorem metric_no_space (m : Metric) : ' ' ∉ m.name.toList := by
  cases m <;> decide

theorem symbol_injective {o o' : CmpOp} (h : o.symbol.toList = o'.symbol.toList) : o = o' := by
  revert h
  cases o <;> cases o' <;> decide

theorem symbol_no_space (o : CmpOp) : ' ' ∉ o.symbol.toList := by
  cases o <;> decide

theorem digits_no_space (n : Nat) : ' ' ∉ (toString n).toList := by
  intro h
  have hdigit := Nat.isDigit_of_mem_toDigits (by decide) (by decide) (Nat.toList_repr ▸ h)
  exact absurd hdigit (by decide)

theorem digits_injective {n m : Nat} (h : (toString n).toList = (toString m).toList) : n = m := by
  have hd : Nat.toDigits 10 n = Nat.toDigits 10 m := by
    rw [← Nat.toList_repr, ← Nat.toList_repr]
    exact h
  rw [← @Nat.ofDigitChars_ten_toDigits n, ← @Nat.ofDigitChars_ten_toDigits m, hd]

section

variable [Chrono] [Codec]

def condText (c : Cond) : List Char :=
  ' ' :: ("where".toList ++ ' ' :: (c.field.toList ++ ' ' :: (c.op.symbol.toList ++ ' ' :: (Codec.jsonText c.value).toList)))

theorem toList_cacheName (q : VectorQuery) :
    (cacheName q).toList = "similar".toList ++ ' ' :: ((q.pattern.toList ++ '.' :: q.field.toList) ++
      ' ' :: (q.metric.name.toList ++ ' ' :: ((toString q.limit).toList ++ ' ' :: ((toString q.ef).toList ++
        q.filter.flatMap condText)))) := by
  have htail (l : List Cond) (name : String) :
      (l.foldl (fun name c => name ++ " where " ++ c.field ++ " " ++ c.op.symbol ++ " " ++ Codec.jsonText c.value)
        name).toList = name.toList ++ l.flatMap condText := by
    induction l generalizing name with
    | nil => simp
    | cons c l ih =>
        rw [List.foldl_cons, ih, List.flatMap_cons]
        simp [condText]
  rw [cacheName, htail]
  simp

/-- Two values whose texts are told apart in a longer text. -/
def Told (v w : Json) : Prop :=
  ∀ r s, Ends r → Ends s → (Codec.jsonText v).toList ++ r = (Codec.jsonText w).toList ++ s → v = w

/-- The same condition but for the time function, which the name leaves out. -/
def Shows (c d : Cond) : Prop := c.field = d.field ∧ c.op = d.op ∧ c.value = d.value

theorem ends_conds (l : List Cond) : Ends (l.flatMap condText) := by
  cases l with
  | nil => exact ends_nil
  | cons c l => exact ends_space _

theorem conds_eq {l m : List Cond} (hl : ∀ c ∈ l, ' ' ∉ c.field.toList) (hm : ∀ d ∈ m, ' ' ∉ d.field.toList)
    (htold : ∀ c ∈ l, ∀ d ∈ m, Told c.value d.value) (h : l.flatMap condText = m.flatMap condText) :
    List.Forall₂ Shows l m := by
  induction l generalizing m with
  | nil =>
      cases m with
      | nil => exact .nil
      | cons d m => exact nomatch h
  | cons c l ih =>
      cases m with
      | nil => exact nomatch h
      | cons d m =>
          obtain ⟨hc, hl⟩ := List.forall_mem_cons.mp hl
          obtain ⟨hd, hm⟩ := List.forall_mem_cons.mp hm
          simp only [List.flatMap_cons, condText, List.cons_append, List.append_assoc] at h
          obtain ⟨-, h⟩ := List.cons.inj h
          have h := (List.cons.inj (List.append_cancel_left h)).2
          obtain ⟨hfield, h⟩ := word_eq hc hd (ends_space _) (ends_space _) h
          obtain ⟨hop, h⟩ := word_eq (symbol_no_space _) (symbol_no_space _) (ends_space _) (ends_space _) (List.cons.inj h).2
          have hvalue := htold c List.mem_cons_self d List.mem_cons_self _ _ (ends_conds l) (ends_conds m)
            (List.cons.inj h).2
          refine .cons ⟨String.toList_injective hfield, symbol_injective hop, hvalue⟩ (ih hl hm ?_ ?_)
          · exact fun c' hc' d' hd' => htold c' (List.mem_cons_of_mem _ hc') d' (List.mem_cons_of_mem _ hd')
          · rw [hvalue] at h
            exact List.append_cancel_left (List.cons.inj h).2

/-- No space in what the name is made of. -/
structure Spaceless (q : VectorQuery) : Prop where
  pattern : ' ' ∉ q.pattern.toList
  field : ' ' ∉ q.field.toList
  conds : ∀ c ∈ q.filter, ' ' ∉ c.field.toList

theorem name_eq {q q' : VectorQuery} (hq : Spaceless q) (hq' : Spaceless q')
    (htold : ∀ c ∈ q.filter, ∀ d ∈ q'.filter, Told c.value d.value) (h : cacheName q = cacheName q') :
    q.pattern = q'.pattern ∧ q.field = q'.field ∧ q.metric = q'.metric ∧ q.limit = q'.limit ∧ q.ef = q'.ef ∧
      List.Forall₂ Shows q.filter q'.filter := by
  have h := congrArg String.toList h
  rw [toList_cacheName, toList_cacheName] at h
  have htarget {q : VectorQuery} (hq : Spaceless q) : ' ' ∉ q.pattern.toList ++ '.' :: q.field.toList := by
    intro hin
    obtain hin | hin := List.mem_append.mp hin
    · exact hq.pattern hin
    · obtain hin | hin := List.mem_cons.mp hin
      · exact absurd hin (by decide)
      · exact hq.field hin
  have h := (List.cons.inj (List.append_cancel_left h)).2
  obtain ⟨htext, h⟩ := word_eq (htarget hq) (htarget hq') (ends_space _) (ends_space _) h
  obtain ⟨hmetric, h⟩ := word_eq (metric_no_space _) (metric_no_space _) (ends_space _) (ends_space _) (List.cons.inj h).2
  obtain ⟨hlimit, h⟩ := word_eq (digits_no_space _) (digits_no_space _) (ends_space _) (ends_space _) (List.cons.inj h).2
  obtain ⟨hef, h⟩ := word_eq (digits_no_space _) (digits_no_space _) (ends_conds _) (ends_conds _) (List.cons.inj h).2
  obtain ⟨hpattern, hfield⟩ := split_eq q.split q'.split htext
  exact ⟨String.toList_injective hpattern, String.toList_injective hfield, metric_name_injective hmetric,
    digits_injective hlimit, digits_injective hef, conds_eq hq.conds hq'.conds htold h⟩

end

section

variable [Chrono] [Zones] [Codec]

/-- A value that is no moment and lists none. -/
def momentFree : Json → Bool
  | .array items => items.all fun v => (tagged v).isNone
  | v => (tagged v).isNone

omit [Zones] [Codec] [Chrono] in
theorem tagged_of_momentFree {b : Json} (h : momentFree b = true) : (tagged b).isNone = true := by
  cases b with
  | array items => rfl
  | _ => exact h

omit [Codec] in
theorem compareOrder_zone {b : Json} (h : (tagged b).isNone = true) (z z' : Zones.Zone) (a : Json) (op : CmpOp) :
    compareOrder z a op b = compareOrder z' a op b := by
  rw [compareOrder, compareOrder, Option.isNone_iff_eq_none.mp h]

theorem compareJson_zone {b : Json} (h : momentFree b = true) (z z' : Zones.Zone) (a : Json) (op : CmpOp) :
    compareJson z a op b = compareJson z' a op b := by
  unfold compareJson
  split
  · next list =>
      have hitems := List.all_eq_true.mp h
      have hany (l : List Json) (hl : ∀ v ∈ l, (tagged v).isNone = true) :
          l.any (fun v => compareOrder z a .eq v) = l.any fun v => compareOrder z' a .eq v := by
        induction l with
        | nil => rfl
        | cons v l ih =>
            obtain ⟨hv, hl⟩ := List.forall_mem_cons.mp hl
            rw [List.any_cons, List.any_cons, compareOrder_zone hv z z', ih hl]
      exact hany list hitems
  · rfl
  · rfl
  · rfl
  · rfl
  · rfl
  · exact compareOrder_zone (tagged_of_momentFree h) z z' a op

/-- A condition that reads no moment. -/
def Timeless (c : Cond) : Prop := c.func = none ∧ momentFree c.value = true

theorem testLeaf_zone {c : Cond} (h : Timeless c) (z z' : Zones.Zone) (v : Leaf) : c.testLeaf z v = c.testLeaf z' v := by
  obtain ⟨hfunc, hvalue⟩ := h
  have htest (v : Json) : c.test z v = c.test z' v := by
    rw [Cond.test, Cond.test, hfunc]
    exact compareJson_zone hvalue z z' v c.op
  rw [Cond.testLeaf, Cond.testLeaf, htest]

theorem Shows.same {c d : Cond} (h : Shows c d) (hfunc : c.func = d.func) (zone : Zones.Zone) (v : Leaf) :
    c.testLeaf zone v = d.testLeaf zone v := by
  obtain ⟨hfield, hop, hvalue⟩ := h
  simp only [Cond.testLeaf, Cond.test, hop, hvalue, hfunc]

/-- The two questions apply the same time functions, and ask in one zone unless they
read no moment. -/
structure SameClock (z z' : Zones.Zone) (l m : List Cond) : Prop where
  funcs : ∀ (i : Nat) (c d : Cond), l[i]? = some c → m[i]? = some d → c.func = d.func
  zones : z = z' ∨ ∀ c ∈ l, Timeless c

theorem SameClock.tests {z z' : Zones.Zone} {l m : List Cond} (hclock : SameClock z z' l m)
    (hshows : List.Forall₂ Shows l m) :
    List.Forall₂ (fun c d => c.field = d.field ∧ ∀ v, c.testLeaf z v = d.testLeaf z' v) l m := by
  induction hshows with
  | nil => exact .nil
  | @cons c d l m hcd hlm ih =>
      refine .cons ⟨hcd.1, fun v => ?_⟩ (ih ⟨fun i c d hc hd => hclock.funcs (i + 1) c d hc hd, ?_⟩)
      · rw [← hcd.same (hclock.funcs 0 c d rfl rfl) z' v]
        obtain rfl | htimeless := hclock.zones
        · rfl
        · exact testLeaf_zone (htimeless c List.mem_cons_self) z z' v
      · exact hclock.zones.imp id fun htimeless c hc => htimeless c (List.mem_cons_of_mem _ hc)

theorem passes_eq {z z' : Zones.Zone} {l m : List Cond}
    (htests : List.Forall₂ (fun c d => c.field = d.field ∧ ∀ v, c.testLeaf z v = d.testLeaf z' v) l m) (doc : DocView) :
    passes z l doc = passes z' m doc := by
  induction htests with
  | nil => rfl
  | @cons c d l m hcd hlm ih =>
      obtain ⟨hfield, htest⟩ := hcd
      unfold passes at ih ⊢
      rw [parsed, parsed, hfield]
      rcases JsonPath.parsePath d.field with e | path
      · rfl
      · revert ih
        rcases parsed l with _ | tests <;> rcases parsed m with _ | tests' <;> intro ih
        · rfl
        · exact nomatch ih
        · exact nomatch ih
        · have hall := Option.some.inj ih
          simp only [Option.map_some, List.all_cons, hall, htest]

/-- Searches that share a cache ask the same: no space blurs the name, and the time
functions and zones it leaves out agree. -/
theorem same_question {q q' : VectorQuery} {z z' : Zones.Zone} (hq : Spaceless q) (hq' : Spaceless q')
    (hclock : SameClock z z' q.filter q'.filter)
    (htold : ∀ c ∈ q.filter, ∀ d ∈ q'.filter, Told c.value d.value) (h : cacheName q = cacheName q') :
    q.pattern = q'.pattern ∧ q.field = q'.field ∧ q.metric = q'.metric ∧ q.limit = q'.limit ∧ q.ef = q'.ef ∧
      ∀ doc, passes z q.filter doc = passes z' q'.filter doc := by
  obtain ⟨hpattern, hfield, hmetric, hlimit, hef, hfilter⟩ := name_eq hq hq' htold h
  exact ⟨hpattern, hfield, hmetric, hlimit, hef, passes_eq (hclock.tests hfilter)⟩

end

section Samples

open Reference

local instance similarCodec : Codec := codec []

/-- Two zones, and no text read as a moment. -/
local instance twoZones : Zones where
  Zone := Bool
  utc := false
  parseDate _ := none
  parseDatetime _ _ := none
  wall _ t := nomatch t
  cmpDateTime t _ := nomatch t
  cmpTime t _ := nomatch t
  hour t := nomatch t
  minute t := nomatch t
  second t := nomatch t

def createdAt (func : Option TimeFn) : Cond := ⟨"doc:*", "created_at", .eq, .number (.posInt 10), func⟩

/-- `get similar` with `created_at = 10`, or a time function of it. -/
def similarTo (func : Option TimeFn) : VectorQuery :=
  ⟨"doc:*", "embedding", .cosine, 10, 0, [createdAt func], ⟨by decide, by decide⟩⟩

def createdTen : DocView := .json (.object [("created_at", .number (.posInt 10))])

/-- `month(created_at) = 10` and `created_at = 10` share a cache, and a document passes
only one of them. -/
theorem month_shares_cache : cacheName (similarTo (some .month)) = cacheName (similarTo none) ∧
    passes (Zones.utc : Zones.Zone) (similarTo none).filter createdTen = some true ∧
    passes (Zones.utc : Zones.Zone) (similarTo (some .month)).filter createdTen = some false := by
  refine ⟨rfl, by decide, by decide⟩

theorem similarTo_spaceless (func : Option TimeFn) : Spaceless (similarTo func) where
  pattern := show ' ' ∉ "doc:*".toList by decide
  field := show ' ' ∉ "embedding".toList by decide
  conds := by
    intro c hc
    obtain rfl := List.mem_singleton.mp hc
    show ' ' ∉ "created_at".toList
    decide

/-- `created_at = 10` asks the same in any zone. -/
theorem same_question_zones : cacheName (similarTo none) = cacheName (similarTo none) ∧
    ∀ doc, passes (false : Zones.Zone) (similarTo none).filter doc = passes (true : Zones.Zone) (similarTo none).filter doc := by
  have hclock : SameClock (false : Zones.Zone) true (similarTo none).filter (similarTo none).filter := by
    refine ⟨fun i c d hc hd => by rw [Option.some.inj (hc.symm.trans hd)], .inr fun c hc => ?_⟩
    obtain rfl := List.mem_singleton.mp hc
    exact ⟨rfl, rfl⟩
  have htold : ∀ c ∈ (similarTo none).filter, ∀ d ∈ (similarTo none).filter, Told c.value d.value := by
    intro c hc d hd r s _ _ _
    rw [List.mem_singleton.mp hc, List.mem_singleton.mp hd]
  obtain ⟨-, -, -, -, -, hpasses⟩ :=
    same_question (similarTo_spaceless none) (similarTo_spaceless none) hclock htold rfl
  exact ⟨rfl, hpasses⟩

end Samples

end KivaDb.Semantic
