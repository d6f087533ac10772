import KivaDb.Schema.Alike
import KivaDb.Engine.Libraries
import KivaDb.Lib.Fallible

namespace KivaDb.Rules

open Doc Lib.Fallible

section

variable [Chrono] [Zones] [Texts]

mutual

/-- A value with the defaults its rule fills in, whether it follows the rule or not. -/
def filledRule (at_ : Moment) : Rule → Json → Json
  | .mk _ (some fields) _, .object inner => .object (filled at_ fields inner)
  | .mk _ _ _, j => j

def filled (at_ : Moment) : List (String × Rule) → Members Json → Members Json
  | [], m => m
  | (name, rule) :: fields, m =>
      let m := withDefault rule.own name at_ m
      filled at_ fields (match m.lookup name with
        | none => m
        | some j => Members.insert name (filledRule at_ rule j) m)

end

theorem lookup_withDefault {name n : String} (o : Own) (at_ : Moment) (m : Members Json) (h : n ≠ name) :
    (withDefault o name at_ m).lookup n = m.lookup n := by
  unfold withDefault
  split
  · rw [Members.lookup_insert, if_neg h]
  · rfl

/-- Filling in changes no field that no rule is for. -/
theorem lookup_filled (at_ : Moment) {n : String} (fields : Fields) (m : Members Json)
    (h : n ∉ fields.map Prod.fst) : (filled at_ fields m).lookup n = m.lookup n := by
  induction fields generalizing m with
  | nil => rw [filled]
  | cons p fields ih =>
      obtain ⟨name, rule⟩ := p
      rw [List.map_cons, List.mem_cons, not_or] at h
      rw [filled, ih _ h.2, ← lookup_withDefault rule.own at_ m h.1]
      split
      · rfl
      · rw [Members.lookup_insert, if_neg h.1]

omit [Chrono] [Zones] [Texts] in
theorem seq_map {α β : Type} {a : Except String α} {f : α → Except String β} {b : β} :
    (do let x ← a; f x) = .ok b ↔ ∃ x, a = .ok x ∧ f x = .ok b := by
  cases a with
  | error e => exact ⟨fun h => (nomatch h), fun ⟨_, h, _⟩ => (nomatch h)⟩
  | ok x =>
      constructor
      · intro h
        exact ⟨x, rfl, h⟩
      · rintro ⟨y, hy, h⟩
        rw [Except.ok.inj hy]
        exact h

omit [Chrono] [Zones] [Texts] in
theorem map_ok {α β : Type} {a : Except String α} {f : α → β} {b : β} :
    a.map f = .ok b ↔ ∃ x, a = .ok x ∧ b = f x := by
  cases a with
  | error e => exact ⟨fun h => (nomatch h), fun ⟨_, h, _⟩ => (nomatch h)⟩
  | ok x =>
      constructor
      · intro h
        exact ⟨x, rfl, (Except.ok.inj h).symm⟩
      · rintro ⟨y, hy, rfl⟩
        rw [Except.ok.inj hy]
        rfl

/-- Every object filled in follows the rules of its fields. -/
def innerHold (a : Asks) (fields : Fields) (m : Members Json) : Prop :=
  ∀ name rule, (name, rule) ∈ fields → ∀ j, m.lookup name = some j → propertiesHold a rule.properties j

omit [Chrono] [Zones] in
theorem fieldsHold_inner {a : Asks} {fields : Fields} {m : Members Json} (h : fieldsHold a fields m) :
    innerHold a fields m := by
  induction fields with
  | nil => exact fun _ _ hmem => nomatch hmem
  | cons p fields ih =>
      obtain ⟨name, rule⟩ := p
      rw [fieldsHold] at h
      intro n r hmem j hj
      rcases List.mem_cons.mp hmem with heq | hmem
      · obtain ⟨rfl, rfl⟩ := Prod.mk.inj heq
        have hrule := h.1
        rw [hj] at hrule
        obtain ⟨own, properties, each⟩ := r
        exact hrule.2.2
      · exact ih h.2 n r hmem j hj

omit [Chrono] [Zones] in
theorem innerHold_cons {a : Asks} {name : String} {rule : Rule} {fields : Fields} {m : Members Json} :
    innerHold a ((name, rule) :: fields) m ↔
      (∀ j, m.lookup name = some j → propertiesHold a rule.properties j) ∧ innerHold a fields m := by
  unfold innerHold
  constructor
  · intro h
    exact ⟨h name rule List.mem_cons_self, fun n r hmem => h n r (List.mem_cons_of_mem _ hmem)⟩
  · rintro ⟨hrule, hfields⟩ n r hmem
    rcases List.mem_cons.mp hmem with heq | hmem
    · obtain ⟨rfl, rfl⟩ := Prod.mk.inj heq
      exact hrule
    · exact hfields n r hmem

namespace Reading

mutual

/-- The filling of a document read one way or the other. -/
def fillRule (r : Reading) (at_ : Moment) : Rule → Json → String → Except String Json
  | .mk _ (some fields) _, .object inner, path => do
      let inner ← r.fillLoop at_ fields inner path
      checkFields fields (fun n => (inner.lookup n).map r.leaf) path
      return .object inner
  | .mk _ _ _, j, _ => .ok j

def fillLoop (r : Reading) (at_ : Moment) : List (String × Rule) → Members Json → String → Except String (Members Json)
  | [], m, _ => .ok m
  | (name, rule) :: fields, m, pre => do
      let m := withDefault rule.own name at_ m
      let m ← match m.lookup name with
        | none => pure m
        | some j => do
            let j ← r.fillRule at_ rule j (join pre name)
            pure (Members.insert name j m)
      r.fillLoop at_ fields m pre

end

def fillAndCheck (r : Reading) (fields : Fields) (m : Members Json) (pre : String) (at_ : Moment) :
    Except String (Members Json) := do
  let m ← r.fillLoop at_ fields m pre
  checkFields fields (fun n => (m.lookup n).map r.leaf) pre
  return m

theorem fillRule_object (r : Reading) (at_ : Moment) (own : Own) (fields : Fields) (each : Option Rule)
    (inner : Members Json) (path : String) : r.fillRule at_ (.mk own (some fields) each) (.object inner) path =
      (r.fillAndCheck fields inner path at_).map .object := by
  rw [fillRule, fillAndCheck]
  rcases r.fillLoop at_ fields inner path with e | m
  · rfl
  · show (do checkFields fields _ path; _) = Except.map _ (do checkFields fields _ path; _)
    rcases checkFields fields (fun n => (m.lookup n).map r.leaf) path with e | u
    · rfl
    · rfl

/-- What the objects inside are asked is asked once more of the whole. -/
theorem fillAndCheck_of {r : Reading} {at_ : Moment} {fields : Fields} {m : Members Json} {pre : String}
    (hloop : ∀ m', r.fillLoop at_ fields m pre = .ok m' ↔ m' = filled at_ fields m ∧ innerHold r.asks fields m')
    (m' : Members Json) :
    r.fillAndCheck fields m pre at_ = .ok m' ↔ m' = filled at_ fields m ∧ fieldsHold r.asks fields m' := by
  rw [fillAndCheck, seq_map]
  constructor
  · rintro ⟨x, hx, hm'⟩
    obtain ⟨u, hu, hm'⟩ := seq_map.mp hm'
    obtain ⟨rfl, -⟩ := (hloop x).mp hx
    rw [← Except.ok.inj hm']
    exact ⟨rfl, (r.checkFields_ok fields _ pre).mp hu⟩
  · rintro ⟨rfl, hholds⟩
    refine ⟨_, (hloop _).mpr ⟨rfl, fieldsHold_inner hholds⟩, ?_⟩
    exact seq_map.mpr ⟨(), (r.checkFields_ok fields _ pre).mpr hholds, rfl⟩

/-- Where a rule has no members to fill in. -/
theorem fillRule_still (r : Reading) (at_ : Moment) {rule : Rule} {j j' : Json} (path : String)
    (h : rule.properties = none ∨ ∀ m, j ≠ .object m) :
    r.fillRule at_ rule j path = .ok j' ↔ j' = filledRule at_ rule j ∧ propertiesHold r.asks rule.properties j' := by
  have hfill : r.fillRule at_ rule j path = .ok j := by
    unfold fillRule
    split
    · exact absurd h (by simp [Rule.properties])
    · rfl
  have hfilled : filledRule at_ rule j = j := by
    unfold filledRule
    split
    · exact absurd h (by simp [Rule.properties])
    · rfl
  have hholds : propertiesHold r.asks rule.properties j := by
    unfold propertiesHold
    split
    · trivial
    · next heq => exact absurd h (by simp [heq])
    · trivial
  rw [hfill, hfilled, Except.ok.injEq]
  constructor
  · rintro rfl
    exact ⟨rfl, hholds⟩
  · rintro ⟨rfl, -⟩
    rfl

mutual

theorem fillRule_ok (r : Reading) (at_ : Moment) : ∀ (rule : Rule) (j j' : Json) (path : String), rule.Distinct →
    (r.fillRule at_ rule j path = .ok j' ↔ j' = filledRule at_ rule j ∧ propertiesHold r.asks rule.properties j')
  | .mk own none each, j, j', path, h => r.fillRule_still at_ path (.inl rfl)
  | .mk own (some fields) each, j, j', path, h => by
      cases j with
      | object inner =>
          have hobject := fillAndCheck_of fun m' => r.fillLoop_ok at_ fields inner m' path h.1
          rw [fillRule_object, filledRule, Rule.properties, map_ok]
          constructor
          · rintro ⟨m, hm, rfl⟩
            obtain ⟨rfl, hholds⟩ := (hobject m).mp hm
            exact ⟨rfl, hholds⟩
          · rintro ⟨rfl, hholds⟩
            exact ⟨_, (hobject _).mpr ⟨rfl, hholds⟩, rfl⟩
      | _ => exact r.fillRule_still at_ path (.inr fun _ h => nomatch h)

theorem fillLoop_ok (r : Reading) (at_ : Moment) : ∀ (fields : List (String × Rule)) (m m' : Members Json)
    (pre : String), fieldsDistinct fields →
    (r.fillLoop at_ fields m pre = .ok m' ↔ m' = filled at_ fields m ∧ innerHold r.asks fields m')
  | [], m, m', pre, h => by
      rw [fillLoop, filled, Except.ok.injEq, eq_comm]
      refine (and_iff_left ?_).symm
      exact fun _ _ hmem => nomatch hmem
  | (name, rule) :: fields, m, m', pre, h => by
      rw [fillLoop, filled, innerHold_cons]
      simp only
      rcases hname : (withDefault rule.own name at_ m).lookup name with _ | j
      · rw [pure_bind, r.fillLoop_ok at_ fields _ m' pre h.2.2]
        refine and_congr_right fun hm' => (and_iff_right ?_).symm
        intro j hj
        rw [hm', lookup_filled at_ fields _ h.1, hname] at hj
        exact nomatch hj
      · simp only [pure_bind, seq_map]
        have hself (x : Json) : (filled at_ fields (Members.insert name x (withDefault rule.own name at_ m))).lookup name
            = some x := by
          rw [lookup_filled at_ fields _ h.1, Members.lookup_insert, if_pos rfl]
        constructor
        · rintro ⟨x, hx, hm'⟩
          obtain ⟨rfl, hrule⟩ := (r.fillRule_ok at_ rule j x _ h.2.1).mp hx
          obtain ⟨rfl, hinner⟩ := (r.fillLoop_ok at_ fields _ m' pre h.2.2).mp hm'
          refine ⟨rfl, fun y hy => ?_, hinner⟩
          rw [hself, Option.some.injEq] at hy
          rwa [← hy]
        · rintro ⟨rfl, hrule, hinner⟩
          exact ⟨_, (r.fillRule_ok at_ rule j _ _ h.2.1).mpr ⟨rfl, hrule _ (hself _)⟩,
            (r.fillLoop_ok at_ fields _ _ pre h.2.2).mpr ⟨rfl, hinner⟩⟩

end

mutual

theorem fillRule_json (at_ : Moment) : ∀ (rule : Rule) (j : Json) (path : String),
    Rules.fillRule at_ rule j path = json.fillRule at_ rule j path
  | .mk own none each, j, path => by
      cases j <;> rfl
  | .mk own (some fields) each, j, path => by
      cases j with
      | object inner =>
          rw [Rules.fillRule, Reading.fillRule, fillLoop_json at_ fields inner path]
          rfl
      | _ => rfl

theorem fillLoop_json (at_ : Moment) : ∀ (fields : List (String × Rule)) (m : Members Json) (pre : String),
    Rules.fillLoop at_ fields m pre = json.fillLoop at_ fields m pre
  | [], m, pre => rfl
  | (name, rule) :: fields, m, pre => by
      rw [Rules.fillLoop, Reading.fillLoop]
      simp only [fillRule_json at_ rule]
      cases List.lookup name (withDefault rule.own name at_ m) with
      | none => exact fillLoop_json at_ fields _ pre
      | some j => exact bind_congr fun j => fillLoop_json at_ fields _ pre

end

theorem withDefaultTyped_eq (o : Own) (name : String) (at_ : Moment) (m : Members Json) :
    withDefaultTyped o name at_ (Members.mapValues fromJson m) = Members.mapValues fromJson (withDefault o name at_ m) := by
  unfold withDefaultTyped withDefault
  rw [Members.lookup_mapValues]
  rcases m.lookup name with _ | j
  · rcases o.fill with _ | d
    · rfl
    · exact Members.insert_mapValues fromJson m name _
  · rfl

theorem fillRuleTyped_object (at_ : Moment) (own : Own) (fields : Fields) (each : Option Rule) (inner : Members Doc)
    (path : String) : fillRuleTyped at_ (.mk own (some fields) each) (.object inner) path =
      (fillAndCheckTyped fields inner path at_).map .object := by
  rw [fillRuleTyped, fillAndCheckTyped]
  rcases fillLoopTyped at_ fields inner path with e | m
  · rfl
  · show (do checkFields fields _ path; _) = Except.map _ (do checkFields fields _ path; _)
    rcases checkFields fields (fun n => (m.lookup n).map .doc) path with e | u
    · rfl
    · rfl

theorem fillAndCheck_typed {at_ : Moment} {fields : Fields} {m : Members Json} {pre : String}
    (h : fillLoopTyped at_ fields (Members.mapValues fromJson m) pre =
      (typed.fillLoop at_ fields m pre).map (Members.mapValues fromJson)) :
    fillAndCheckTyped fields (Members.mapValues fromJson m) pre at_ =
      (typed.fillAndCheck fields m pre at_).map (Members.mapValues fromJson) := by
  rw [fillAndCheckTyped, fillAndCheck, h]
  rcases typed.fillLoop at_ fields m pre with e | m'
  · rfl
  · have hleaf : (fun n => ((Members.mapValues fromJson m').lookup n).map Leaf.doc) =
        fun n => (m'.lookup n).map typed.leaf := by
      funext n
      rw [Members.lookup_mapValues, Option.map_map]
      rfl
    show (do checkFields fields _ pre; _) = Except.map _ (do checkFields fields _ pre; _)
    rw [hleaf]
    rcases checkFields fields (fun n => (m'.lookup n).map typed.leaf) pre with e | u
    · rfl
    · rfl

mutual

theorem fillRule_typed (at_ : Moment) : ∀ (rule : Rule) (j : Json) (path : String),
    fillRuleTyped at_ rule (fromJson j) path = (typed.fillRule at_ rule j path).map fromJson
  | .mk own none each, j, path => rfl
  | .mk own (some fields) each, j, path => by
      cases j with
      | object inner =>
          have hobject := fillAndCheck_typed (fillLoop_typed at_ fields inner path)
          rw [fromJson_object, fillRuleTyped_object, fillRule_object, hobject]
          rcases typed.fillAndCheck fields inner path at_ with e | m
          · rfl
          · exact congrArg Except.ok (fromJson_object m).symm
      | number n =>
          have hfilled : (typed.fillRule at_ (.mk own (some fields) each) (.number n) path).map fromJson =
              .ok (fromNumber n) := rfl
          rw [hfilled, fromJson]
          rcases fromNumber_cases n with ⟨x, h⟩ | ⟨x, h⟩ | ⟨x, h⟩ <;> rw [h] <;> rfl
      | _ => rfl

theorem fillLoop_typed (at_ : Moment) : ∀ (fields : List (String × Rule)) (m : Members Json) (pre : String),
    fillLoopTyped at_ fields (Members.mapValues fromJson m) pre =
      (typed.fillLoop at_ fields m pre).map (Members.mapValues fromJson)
  | [], m, pre => rfl
  | (name, rule) :: fields, m, pre => by
      rw [fillLoopTyped, Reading.fillLoop]
      simp only
      rw [withDefaultTyped_eq, Members.lookup_mapValues]
      rcases (withDefault rule.own name at_ m).lookup name with _ | j
      · exact fillLoop_typed at_ fields _ pre
      · simp only [Option.map_some, fillRule_typed at_ rule]
        rcases typed.fillRule at_ rule j (join pre name) with e | x
        · rfl
        · refine Eq.trans ?_ (fillLoop_typed at_ fields _ pre)
          rw [← Members.insert_mapValues]
          rfl

end

end Reading

namespace Schema

variable {s : Schema} {at_ : Moment} {m : Members Json}

/-- A document is accepted where, with its defaults, it follows the rules. -/
theorem conform_ok {f : Json} : s.conform (.object m) at_ = .ok f ↔
    f = .object (filled at_ s.fields m) ∧ fieldsHold Reading.json.asks s.fields (filled at_ s.fields m) := by
  have hfill : fillAndCheck s.fields m "" at_ = Reading.json.fillAndCheck s.fields m "" at_ := by
    rw [fillAndCheck, Reading.fillAndCheck, Reading.fillLoop_json]
    rfl
  have hok := Reading.fillAndCheck_of fun m' => Reading.json.fillLoop_ok at_ s.fields m m' "" s.distinct
  rw [conform, hfill, map_ok]
  constructor
  · rintro ⟨m', hm', rfl⟩
    obtain ⟨rfl, hholds⟩ := (hok m').mp hm'
    exact ⟨rfl, hholds⟩
  · rintro ⟨rfl, hholds⟩
    exact ⟨_, (hok _).mpr ⟨rfl, hholds⟩, rfl⟩

theorem conformTyped_ok {d : Doc} : s.conformTyped (fromJson (.object m)) at_ = .ok d ↔
    d = fromJson (.object (filled at_ s.fields m)) ∧
      fieldsHold Reading.typed.asks s.fields (filled at_ s.fields m) := by
  have hok := Reading.fillAndCheck_of fun m' => Reading.typed.fillLoop_ok at_ s.fields m m' "" s.distinct
  rw [fromJson_object, conformTyped, Reading.fillAndCheck_typed (Reading.fillLoop_typed at_ s.fields m ""), map_ok]
  simp only [map_ok]
  constructor
  · rintro ⟨_, ⟨m', hm', rfl⟩, rfl⟩
    obtain ⟨rfl, hholds⟩ := (hok m').mp hm'
    exact ⟨(fromJson_object _).symm, hholds⟩
  · rintro ⟨rfl, hholds⟩
    exact ⟨_, ⟨_, (hok _).mpr ⟨rfl, hholds⟩, rfl⟩, fromJson_object _⟩

theorem check_ok : s.check (.object m) = .ok () ↔ fieldsHold Reading.json.asks s.fields m :=
  Reading.json.checkFields_ok s.fields m ""

theorem checkView_ok : s.checkView (.typed (fromJson (.object m))) = .ok () ↔
    fieldsHold Reading.typed.asks s.fields m := by
  rw [← Reading.typed.checkFields_ok s.fields m "", fromJson_object]
  simp only [checkView, Members.lookup_mapValues, Option.map_map]
  rfl

end Schema

/-- What the rules ask of a document, its confused integers apart. -/
def forgiving : Asks where
  P o j := o.Passes (.json j) ∨ o.Confused j
  R o := o.required = false

/-- Where a document breaks no other rule, none of its integers is confused. -/
def Clear (fields : Fields) (m : Members Json) : Prop :=
  fieldsHold forgiving fields m → fieldsHold (everywhere fun o j => ¬ o.Confused j) fields m

theorem asks_typed : Reading.typed.asks = forgiving := by
  unfold Reading.asks forgiving
  congr 1
  funext o j
  exact propext (Own.passes_fromJson j)

theorem clear_iff {fields : Fields} {m : Members Json} :
    Clear fields m ↔ (fieldsHold Reading.json.asks fields m ↔ fieldsHold Reading.typed.asks fields m) := by
  rw [asks_json, fieldsHold_both, ← asks_typed.symm, Clear]
  exact ⟨fun h => ⟨And.left, fun ht => ⟨ht, h ht⟩⟩, fun h ht => (h.mpr ht).2⟩

namespace Schema

/-- The schema judges a document alike as JSON and as typed values, with its defaults and
as it is. -/
structure Alike (s : Schema) (at_ : Moment) (m : Members Json) : Prop where
  conform : (s.conform (.object m) at_).toOption.map fromJson = (s.conformTyped (fromJson (.object m)) at_).toOption
  check : (s.check (.object m)).toOption = (s.checkView (.typed (fromJson (.object m)))).toOption

theorem alike_iff_clear (s : Schema) (at_ : Moment) (m : Members Json) :
    s.Alike at_ m ↔ Clear s.fields (filled at_ s.fields m) ∧ Clear s.fields m := by
  rw [clear_iff, clear_iff]
  constructor
  · rintro ⟨hconform, hcheck⟩
    constructor
    · constructor
      · intro h
        have hf := toOption_eq_some.mpr ((conform_ok (f := .object (filled at_ s.fields m))).mpr ⟨rfl, h⟩)
        rw [hf] at hconform
        exact (conformTyped_ok.mp (toOption_eq_some.mp hconform.symm)).2
      · intro h
        have hd := toOption_eq_some.mpr (conformTyped_ok.mpr ⟨rfl, h⟩)
        obtain ⟨f, hf, -⟩ := Option.map_eq_some_iff.mp (hconform.trans hd)
        exact (conform_ok.mp (toOption_eq_some.mp hf)).2
    · rw [← check_ok, ← checkView_ok, ← toOption_eq_some, ← toOption_eq_some, hcheck]
  · rintro ⟨hfilled, hplain⟩
    constructor
    · ext d
      rw [toOption_eq_some, conformTyped_ok, ← hfilled, Option.map_eq_some_iff]
      simp only [toOption_eq_some, conform_ok]
      constructor
      · rintro ⟨f, ⟨rfl, h⟩, rfl⟩
        exact ⟨rfl, h⟩
      · rintro ⟨rfl, h⟩
        exact ⟨_, ⟨rfl, h⟩, rfl⟩
    · ext u
      rw [toOption_eq_some, toOption_eq_some, check_ok, checkView_ok, hplain]

end Schema

end

section Samples

/-- Seconds, in UTC. -/
local instance seconds : Chrono where
  DateTime := Int
  NaiveTime := Nat
  decEqDateTime := inferInstance
  decEqNaiveTime := inferInstance
  iso t := Int.repr t
  timeText t := Nat.repr t
  parseDatetime _ := none
  parseTime _ := none

local instance oneZone : Zones where
  Zone := Unit
  utc := ()
  parseDate _ := none
  parseDatetime _ _ := none
  wall _ := fun t : Int => (Lib.Calendar.Date.epoch.addDays (t / 86400), (t % 86400).toNat)
  cmpDateTime := fun s t : Int => compare s t
  cmpTime := fun s t : Nat => compare s t
  hour := fun t : Nat => t / 3600
  minute := fun t : Nat => t / 60 % 60
  second := fun t : Nat => t % 60

def tenTo19 : F64 := ⟨false, 1086, 379212872629504⟩

def numberText : Number → String
  | .posInt u => String.ofList (Nat.toDigits 10 u.toNat)
  | .negInt i => String.ofList ('-' :: Nat.toDigits 10 i.toInt.natAbs)
  | .float _ => "1e19"

/-- No pattern, and the texts of whole numbers and of `1e19`. -/
local instance plainTexts : Texts where
  Regex := Empty
  isMatch re _ := nomatch re
  asStr re := nomatch re
  floatText _ := "1e19"
  numberText := numberText
  jsonText j :=
    match j with
    | .number n => numberText n
    | _ => ""

/-- The rule of `{"enum": [1e19]}`. -/
def isTenTo19 : Rule :=
  .mk ⟨none, false, false, false, none, none, none, none, none, none, some [.number (.float tenTo19)], none, none⟩ none none

theorem isTenTo19_distinct : fieldsDistinct [("n", isTenTo19)] :=
  ⟨fun h => (nomatch h), ⟨trivial, trivial⟩, trivial⟩

def listsTenTo19 : Schema := ⟨"big:*", [("n", isTenTo19)], isTenTo19_distinct⟩

def holdsTenTo19 : Members Json := [("n", .number (.posInt 10000000000000000000))]

def epoch : Moment := ⟨(0 : Int), ()⟩

theorem tenTo19_value : tenTo19.value = (10000000000000000000 : UInt64).toNat := by
  have hbig : (10000000000000000000 : UInt64).toNat = 10000000000000000000 := by decide
  have hmantissa : tenTo19.mantissa = 4882812500000000 := by decide
  have hexp : tenTo19.exp = 11 := by decide
  rw [hbig, F64.value, Num.Ratio.ofFloat, hmantissa, hexp]
  have heleven : (11 : Int).toNat = 11 := rfl
  norm_num [tenTo19, Num.Ratio.value, heleven]

theorem holdsTenTo19_filled : filled epoch listsTenTo19.fields holdsTenTo19 = holdsTenTo19 := by
  simp [listsTenTo19, holdsTenTo19, filled, withDefault, isTenTo19, Rule.own, filledRule, Members.insert]

/-- `10000000000000000000` is none of `1e19` where it is JSON, and one where it is typed. -/
theorem tenTo19_judged_apart :
    (∀ f, listsTenTo19.conform (.object holdsTenTo19) epoch ≠ .ok f) ∧
      listsTenTo19.conformTyped (fromJson (.object holdsTenTo19)) epoch = .ok (fromJson (.object holdsTenTo19)) ∧
      ¬ listsTenTo19.Alike epoch holdsTenTo19 := by
  have hbig : 2 ^ 63 ≤ (10000000000000000000 : UInt64).toNat := by decide
  have hjson : ∀ f, listsTenTo19.conform (.object holdsTenTo19) epoch ≠ .ok f := by
    intro f hf
    have hholds := (Schema.conform_ok.mp hf).2
    rw [holdsTenTo19_filled] at hholds
    have hlisted := ((Own.passes_beyond hbig).mp hholds.1.1).2.2 _ rfl
    exact nomatch List.mem_singleton.mp hlisted
  have htyped : listsTenTo19.conformTyped (fromJson (.object holdsTenTo19)) epoch =
      .ok (fromJson (.object holdsTenTo19)) := by
    refine Schema.conformTyped_ok.mpr ⟨by rw [holdsTenTo19_filled], ?_⟩
    rw [holdsTenTo19_filled]
    refine ⟨⟨(Own.passes_decimal hbig).mpr ⟨fun _ h => (nomatch h), ⟨fun _ h => (nomatch h), fun _ h => (nomatch h)⟩, ?_⟩,
      trivial, trivial⟩, trivial⟩
    rintro values hvalues
    rw [← Option.some.inj hvalues]
    exact .inr ⟨tenTo19, List.mem_singleton_self _, tenTo19_value⟩
  refine ⟨hjson, htyped, fun h => ?_⟩
  have hconform := h.conform
  rw [htyped] at hconform
  obtain ⟨f, hf, -⟩ := Option.map_eq_some_iff.mp hconform
  exact hjson f (toOption_eq_some.mp hf)

end Samples

end KivaDb.Rules
