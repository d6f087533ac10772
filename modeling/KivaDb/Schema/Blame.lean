import KivaDb.Schema.Parse

namespace KivaDb.Rules

open Reading

variable [Chrono] [Zones] [Texts]

/-- What a rule asks of a field, there or not. -/
def Rule.HoldsAt (a : Asks) (rule : Rule) : Option Json → Prop
  | none => a.R rule.own
  | some j => rule.Holds a j

omit [Chrono] [Zones] in
theorem fieldsHold_iff {a : Asks} {fields : Fields} {m : Members Json} :
    fieldsHold a fields m ↔ ∀ name rule, (name, rule) ∈ fields → rule.HoldsAt a (m.lookup name) := by
  induction fields with
  | nil => exact iff_of_true trivial fun _ _ hmem => (by cases hmem)
  | cons p fields ih =>
      obtain ⟨name, rule⟩ := p
      have hhead : fieldsHold a ((name, rule) :: fields) m ↔ rule.HoldsAt a (m.lookup name) ∧ fieldsHold a fields m := by
        rw [fieldsHold]
        rcases m.lookup name with _ | j <;> exact Iff.rfl
      rw [hhead, ih]
      constructor
      · rintro ⟨hrule, hfields⟩ n r hmem
        rcases List.mem_cons.mp hmem with heq | hmem
        · obtain ⟨rfl, rfl⟩ := Prod.mk.inj heq
          exact hrule
        · exact hfields n r hmem
      · intro h
        exact ⟨h name rule List.mem_cons_self, fun n r hmem => h n r (List.mem_cons_of_mem _ hmem)⟩

/-- A default follows its rule where it is written out, and what is written at the moment of the write
has no length or pattern to follow. -/
def Own.Fresh (own : Own) : Prop :=
  ∀ d, own.fill = some d → (∀ j, d ≠ .value j) → own.minLength = none ∧ own.maxLength = none ∧ own.pattern = none

mutual

/-- What is known of the defaults of a rule that was read. -/
def Rule.Vetted : Rule → Prop
  | .mk own properties each => (∀ d, own.fill = some (.value d) → (Rule.mk own properties each).Holds json.asks d) ∧
      own.Fresh ∧ propertiesVetted properties

def propertiesVetted : Option (List (String × Rule)) → Prop
  | none => True
  | some fields => fieldsVetted fields

def fieldsVetted : List (String × Rule) → Prop
  | [] => True
  | (_, rule) :: fields => rule.Vetted ∧ fieldsVetted fields

end

theorem fieldsVetted_mem {fields : Fields} (h : fieldsVetted fields) {name : String} {rule : Rule}
    (hmem : (name, rule) ∈ fields) : rule.Vetted := by
  induction fields with
  | nil => cases hmem
  | cons p fields ih =>
      obtain ⟨n, r⟩ := p
      rcases List.mem_cons.mp hmem with heq | hmem
      · rw [(Prod.mk.inj heq).2]
        exact h.1
      · exact ih h.2 hmem

/-- What is written at the moment of the write is read back as what it is, and is among the values listed. -/
def Own.Timely (own : Own) (at_ : Moment) (d : Fill) : Prop :=
  (∀ j, d ≠ .value j) → (∀ ty, own.ty = some ty → ty.accepts (defaultValue d at_) = true) ∧
    ∀ values, own.oneOf = some values → Own.listed values (.json (defaultValue d at_)) = true

mutual

/-- The defaults a value is given follow their rules: those written at the moment of the write, and,
where the value is a default itself, the objects of a list that defaults are filled in. -/
def soundRule (at_ : Moment) (given : Bool) : Rule → Json → Prop
  | .mk own (some fields) _, .object inner =>
      (given = false → ∀ values, own.oneOf = some values →
        Own.listed values (.json (.object (filled at_ fields inner))) = true) ∧ sound at_ given fields inner
  | .mk _ _ _, _ => True

def sound (at_ : Moment) (given : Bool) : List (String × Rule) → Members Json → Prop
  | [], _ => True
  | (name, rule) :: fields, m =>
      (match m.lookup name, rule.own.fill with
        | some j, _ => soundRule at_ given rule j
        | none, some d => rule.own.Timely at_ d ∧ soundRule at_ false rule (defaultValue d at_)
        | none, none => True) ∧ sound at_ given fields m

end

/-- As `sound`, of one field. -/
def soundAt (at_ : Moment) (given : Bool) (rule : Rule) : Option Json → Prop
  | some j => soundRule at_ given rule j
  | none => ∀ d, rule.own.fill = some d → rule.own.Timely at_ d ∧ soundRule at_ false rule (defaultValue d at_)

variable {at_ : Moment} {given : Bool}

theorem sound_iff {fields : Fields} {m : Members Json} :
    sound at_ given fields m ↔ ∀ name rule, (name, rule) ∈ fields → soundAt at_ given rule (m.lookup name) := by
  induction fields with
  | nil => exact iff_of_true trivial fun _ _ hmem => (by cases hmem)
  | cons p fields ih =>
      obtain ⟨name, rule⟩ := p
      have hhead : sound at_ given ((name, rule) :: fields) m ↔
          soundAt at_ given rule (m.lookup name) ∧ sound at_ given fields m := by
        rw [sound, soundAt.eq_def]
        rcases m.lookup name with _ | j
        · rcases rule.own.fill with _ | d
          · simp
          · simp
        · exact Iff.rfl
      rw [hhead, ih]
      constructor
      · rintro ⟨hrule, hfields⟩ n r hmem
        rcases List.mem_cons.mp hmem with heq | hmem
        · obtain ⟨rfl, rfl⟩ := Prod.mk.inj heq
          exact hrule
        · exact hfields n r hmem
      · intro h
        exact ⟨h name rule List.mem_cons_self, fun n r hmem => h n r (List.mem_cons_of_mem _ hmem)⟩

/-- Of an object only its own list of values can refuse what was filled in. -/
theorem Own.passes_object {o : Own} {m m' : Members Json} (h : o.Passes (.json (.object m))) :
    o.Passes (.json (.object m')) ↔ ∀ values, o.oneOf = some values → Own.listed values (.json (.object m')) = true := by
  rw [Own.Passes, Own.check_ok] at h ⊢
  have hnull : ¬ (isNull (.json (.object m)) && o.nullAllowed) = true := fun h => (by cases h)
  have hnull' : ¬ (isNull (.json (.object m')) && o.nullAllowed) = true := fun h => (by cases h)
  obtain ⟨hty, -, -, -⟩ := h.resolve_left hnull
  constructor
  · exact fun h' => (h'.resolve_left hnull').2.2.1
  · intro hlisted
    refine .inr ⟨fun ty hsome => ?_, fun _ hn => (by cases hn), hlisted, rfl⟩
    have haccepts := hty ty hsome
    cases ty <;> exact haccepts

theorem Own.passes_text {o : Own} {d : Fill} (hfresh : o.Fresh) (hfill : o.fill = some d) (hd : ∀ j, d ≠ .value j) :
    o.Passes (.json (defaultValue d at_)) ↔ o.Timely at_ d := by
  obtain ⟨hmin, hmax, hpattern⟩ := hfresh d hfill hd
  obtain ⟨s, hs⟩ : ∃ s, defaultValue d at_ = .string s := by
    cases d with
    | value j => exact absurd rfl (hd j)
    | _ => exact ⟨_, rfl⟩
  have hshape : o.checkShape (.json (.string s)) "" = .ok () := by
    rw [Own.checkShape, Own.checkText, hmin, hmax, hpattern]
    rfl
  rw [Own.Passes, Own.check_ok, Own.Timely, hs]
  constructor
  · rintro (hnull | ⟨hty, -, hlisted, -⟩) -
    · cases hnull
    · exact ⟨hty, hlisted⟩
  · intro h
    exact .inr ⟨(h hd).1, fun _ hn => (by cases hn), (h hd).2, hshape⟩

theorem holdsAt_filled {fields : Fields} {m : Members Json} (hdistinct : fieldsDistinct fields) :
    fieldsHold json.asks fields (filled at_ fields m) ↔ ∀ name rule, (name, rule) ∈ fields →
      rule.HoldsAt json.asks ((givenAt at_ rule (m.lookup name)).map (filledRule at_ rule)) := by
  rw [fieldsHold_iff]
  refine forall_congr' fun name => forall_congr' fun rule => forall_congr' fun hmem => ?_
  rw [lookup_filled_mem at_ hdistinct hmem]

/-- A value that follows its rule keeps to it when defaults are filled in, if they are sound. -/
def Rule.Keeps (at_ : Moment) (rule : Rule) : Prop :=
  rule.Vetted → rule.Distinct → ∀ j, rule.Holds json.asks j →
    (rule.Holds json.asks (filledRule at_ rule j) ↔ soundRule at_ false rule j)

/-- What a rule asks of its default, filled in. -/
theorem Rule.Keeps.default {rule : Rule} {d : Fill} (h : rule.Keeps at_) (hvetted : rule.Vetted) (hdistinct : rule.Distinct)
    (hfill : rule.own.fill = some d) : rule.Holds json.asks (filledRule at_ rule (defaultValue d at_)) ↔
      rule.own.Timely at_ d ∧ soundRule at_ false rule (defaultValue d at_) := by
  by_cases hd : ∃ j, d = .value j
  · obtain ⟨j, rfl⟩ := hd
    have hholds : rule.Holds json.asks j := by
      obtain ⟨own, properties, each⟩ := rule
      exact hvetted.1 j hfill
    refine (h hvetted hdistinct j hholds).trans (and_iff_right ?_).symm
    exact fun hnot => absurd rfl (hnot j)
  · have hnot : ∀ j, d ≠ .value j := fun j hj => hd ⟨j, hj⟩
    obtain ⟨s, hs⟩ : ∃ s, defaultValue d at_ = .string s := by
      cases d with
      | value j => exact absurd rfl (hnot j)
      | _ => exact ⟨_, rfl⟩
    obtain ⟨own, properties, each⟩ := rule
    have hpass : own.Passes (.json (defaultValue d at_)) ↔ own.Timely at_ d := Own.passes_text hvetted.2.1 hfill hnot
    rw [hs] at hpass ⊢
    have hfilled : filledRule at_ (.mk own properties each) (.string s) = .string s := by
      cases properties <;> rfl
    have hsound : soundRule at_ false (.mk own properties each) (.string s) := by
      cases properties <;> trivial
    have hinner : itemsHold json.asks each (.string s) ∧ propertiesHold json.asks properties (.string s) := by
      constructor
      · cases each with
        | none => trivial
        | some each => exact fun x hx => nomatch hx
      · cases properties <;> trivial
    rw [hfilled, and_iff_left hsound, Rule.Holds, and_iff_left hinner]
    exact hpass

theorem Rule.keeps (rule : Rule) : rule.Keeps at_ := by
  induction rule using Rule.ofMembers with
  | h own properties each ih =>
      intro hvetted hdistinct j hholds
      cases properties with
      | none =>
          have hfilled : filledRule at_ (.mk own none each) j = j := by cases j <;> rfl
          have hsound : soundRule at_ false (.mk own none each) j := by cases j <;> trivial
          rw [hfilled]
          exact iff_of_true hholds hsound
      | some fields =>
          cases j with
          | object inner =>
              obtain ⟨hpass, hitems, hfields⟩ := hholds
              have hfields' := fieldsHold_iff.mp hfields
              have hitems' : itemsHold json.asks each (.object (filled at_ fields inner)) := by
                cases each with
                | none => trivial
                | some each => exact fun x hx => nomatch hx
              have hinner : fieldsHold json.asks fields (filled at_ fields inner) ↔ sound at_ false fields inner := by
                rw [holdsAt_filled hdistinct.1, sound_iff]
                refine forall_congr' fun name => forall_congr' fun rule => forall_congr' fun hmem => ?_
                have hrule := hfields' name rule hmem
                have hkeeps := ih fields rfl name rule hmem
                have hvetted' := fieldsVetted_mem hvetted.2.2 hmem
                have hdistinct' := fieldsDistinct_mem hdistinct.1 hmem
                generalize inner.lookup name = x at hrule ⊢
                cases x with
                | none =>
                    rw [soundAt, givenAt, Option.none_or]
                    cases hfill : rule.own.fill with
                    | none => exact iff_of_true hrule fun _ hd => nomatch hd
                    | some d =>
                        simp only [Option.some.injEq, forall_eq']
                        exact hkeeps.default hvetted' hdistinct' hfill
                | some j => exact hkeeps hvetted' hdistinct' j hrule
              rw [filledRule, soundRule, Rule.Holds, and_iff_right hitems', propertiesHold, hinner]
              refine and_congr_left fun _ => ?_
              rw [forall_prop_of_true rfl]
              exact Own.passes_object hpass
          | _ => exact iff_of_true hholds trivial

mutual

/-- What may be said against a value a document has. -/
inductive AboutValue (at_ : Moment) : Rule → Json → String → String → Prop
  | own {own : Own} {properties : Option Fields} {each : Option Rule} {j : Json} {path e : String} :
      own.check (.json (filledRule at_ (.mk own properties each) j)) path = .error e →
      AboutValue at_ (.mk own properties each) j path e
  | items {own : Own} {properties : Option Fields} {each : Option Rule} {j : Json} {path e : String} :
      checkInner each (.json j) path = .error e → AboutValue at_ (.mk own properties each) j path e
  | inside {own : Own} {fields : Fields} {each : Option Rule} {inner : Members Json} {path e : String} :
      About at_ fields inner path e → AboutValue at_ (.mk own (some fields) each) (.object inner) path e

/-- What may be said against an object: of a field that it has, or lacks where there is no default. -/
inductive About (at_ : Moment) : List (String × Rule) → Members Json → String → String → Prop
  | missing {fields : Fields} {m : Members Json} {pre name : String} {rule : Rule} : (name, rule) ∈ fields →
      m.lookup name = none → rule.own.fill = none → rule.own.required = true →
      About at_ fields m pre s!"{join pre name}: required"
  | within {fields : Fields} {m : Members Json} {pre name e : String} {rule : Rule} {j : Json} : (name, rule) ∈ fields →
      m.lookup name = some j → AboutValue at_ rule j (join pre name) e → About at_ fields m pre e

end

end KivaDb.Rules
