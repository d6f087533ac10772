import KivaDb.Schema.Blame

namespace KivaDb

mutual

/-- No object names a member twice. -/
def Json.Keyed : Json → Prop
  | .object m => (m.map Prod.fst).Nodup ∧ membersKeyed m
  | .array a => itemsKeyed a
  | _ => True

def membersKeyed : List (String × Json) → Prop
  | [] => True
  | (_, j) :: m => j.Keyed ∧ membersKeyed m

def itemsKeyed : List Json → Prop
  | [] => True
  | j :: a => j.Keyed ∧ itemsKeyed a

end

theorem membersKeyed_lookup {m : Members Json} (h : membersKeyed m) {k : String} {j : Json} (hj : m.lookup k = some j) :
    j.Keyed := by
  induction m with
  | nil => exact nomatch hj
  | cons p m ih =>
      obtain ⟨n, x⟩ := p
      rw [Members.lookup_cons] at hj
      split at hj
      · rw [← Option.some.inj hj]
        exact h.1
      · exact ih h.2 hj

namespace Rules

open Reading

section

variable {m : Members Json} {path : String}

theorem count_none {k : String} {x : Option Nat} (h : count m path k = .ok x) (hk : m.lookup k = none) : x = none := by
  rw [count, hk] at h
  exact (Except.ok.inj h).symm

theorem only_ok {what types : String} (h : only m path what false types = .ok ()) : m.lookup what = none := by
  unfold only at h
  split at h
  · exact nomatch h
  · next hnot =>
      by_contra hsome
      exact hnot ⟨Option.isSome_iff_ne_none.mpr hsome, rfl⟩

/-- What only texts may have no other type has. -/
theorem checkApplies_text {ty : Option FieldType} (h : checkApplies m path ty = .ok ()) (hty : ty ≠ some .string) :
    m.lookup "minLength" = none ∧ m.lookup "maxLength" = none ∧ m.lookup "pattern" = none := by
  have htext : decide (ty = some .string) = false := decide_eq_false hty
  unfold checkApplies at h
  simp only [htext] at h
  obtain ⟨_, -, h⟩ := seq_map.mp h
  obtain ⟨_, -, h⟩ := seq_map.mp h
  obtain ⟨_, hmin, h⟩ := seq_map.mp h
  obtain ⟨_, hmax, h⟩ := seq_map.mp h
  obtain ⟨_, hpattern, h⟩ := seq_map.mp h
  exact ⟨only_ok hmin, only_ok hmax, only_ok hpattern⟩

variable [Texts]

theorem parseOwn_ok {o : Own} (h : parseOwn m path = .ok o) : o.fill = none ∧
    count m path "minLength" = .ok o.minLength ∧ count m path "maxLength" = .ok o.maxLength := by
  unfold parseOwn at h
  obtain ⟨ty, -, h⟩ := seq_map.mp h
  obtain ⟨required, -, h⟩ := seq_map.mp h
  obtain ⟨nullable, -, h⟩ := seq_map.mp h
  obtain ⟨unique, -, h⟩ := seq_map.mp h
  obtain ⟨min, -, h⟩ := seq_map.mp h
  obtain ⟨max, -, h⟩ := seq_map.mp h
  obtain ⟨minLength, hmin, h⟩ := seq_map.mp h
  obtain ⟨maxLength, hmax, h⟩ := seq_map.mp h
  obtain ⟨minItems, -, h⟩ := seq_map.mp h
  obtain ⟨maxItems, -, h⟩ := seq_map.mp h
  rw [← Except.ok.inj h]
  exact ⟨rfl, hmin, hmax⟩

omit [Texts] in
theorem dynamicDefault_type {ty : Option FieldType} {j : Json} {d : Fill} (h : dynamicDefault ty j = some d) :
    ty ≠ some .string ∧ ∀ x, d ≠ .value x := by
  unfold dynamicDefault at h
  split at h
  · split at h
    · rw [← Option.some.inj h]
      exact ⟨fun h => (nomatch h), fun _ h => (nomatch h)⟩
    · exact nomatch h
  · split at h
    · rw [← Option.some.inj h]
      exact ⟨fun h => (nomatch h), fun _ h => (nomatch h)⟩
    · exact nomatch h
  · split at h
    · rw [← Option.some.inj h]
      exact ⟨fun h => (nomatch h), fun _ h => (nomatch h)⟩
    · exact nomatch h
  · exact nomatch h

variable [Chrono] [Zones]

theorem parseDefault_ok {r : Rule} {inItems : Bool} {d : Fill} (h : parseDefault m path r inItems = .ok (some d)) :
    (∃ j, dynamicDefault r.own.ty j = some d) ∨ ∃ j, d = .value j ∧ checkValue r (.json j) path = .ok () := by
  unfold parseDefault at h
  split at h
  · cases h
  · next j hj =>
      split at h
      · cases h
      · split at h
        · next fill hfill =>
            rw [← Option.some.inj (Except.ok.inj h)]
            exact .inl ⟨j, hfill⟩
        · split at h
          · next hok =>
              rw [← Option.some.inj (Except.ok.inj h)]
              exact .inr ⟨j, rfl, hok⟩
          · cases h

variable [Patterns]

omit [Chrono] [Zones] in
/-- What a rule that is read asks of texts only where it is for texts. -/
theorem parseOwnWhole_text {inItems : Bool} {own : Own} (h : parseOwnWhole m path inItems = .ok own) :
    own.ty ≠ some .string → own.minLength = none ∧ own.maxLength = none ∧ own.pattern = none := by
  obtain ⟨o, oneOf, pattern, -, ho, happlies, -, -, -, -, hpattern, rfl⟩ := parseOwnWhole_ok.mp h
  intro hty
  obtain ⟨hmin, hmax, hnone⟩ := checkApplies_text happlies hty
  obtain ⟨-, hminLength, hmaxLength⟩ := parseOwn_ok ho
  refine ⟨count_none hminLength hmin, count_none hmaxLength hmax, ?_⟩
  rw [parsePattern, hnone] at hpattern
  exact (Except.ok.inj hpattern).symm

/-- A rule is read with its default checked. -/
theorem vetted_withFill {inItems : Bool} {own : Own} {properties : Option Fields} {items : Option Rule} {fill : Option Fill}
    (hown : parseOwnWhole m path inItems = .ok own) (hproperties : propertiesVetted properties)
    (hfill : parseDefault m path (.mk own properties items) inItems = .ok fill) :
    ((Rule.mk own properties items).withFill fill).Vetted := by
  refine ⟨fun j hj => ?_, fun d hd hnot => ?_, hproperties⟩
  · obtain rfl : fill = some (.value j) := hj
    rcases parseDefault_ok hfill with ⟨x, hx⟩ | ⟨x, hx, hok⟩
    · exact absurd rfl ((dynamicDefault_type hx).2 j)
    · obtain rfl := Fill.value.inj hx
      exact (json.checkValue_ok _ _ _).mp hok
  · obtain rfl : fill = some d := hd
    rcases parseDefault_ok hfill with ⟨x, hx⟩ | ⟨x, hx, -⟩
    · have htext := parseOwnWhole_text hown
      exact htext (dynamicDefault_type hx).1
    · exact absurd hx (hnot x)

theorem parseRule_ok {depth : Nat} {inItems : Bool} {spec : Json} {r : Rule} (h : parseRule spec path depth inItems = .ok r) :
    ∃ m own properties items fill, spec = .object m ∧ parseOwnWhole m path inItems = .ok own ∧
      parseProperties m path depth = .ok properties ∧ parseItems m path depth = .ok items ∧
      parseDefault m path (.mk own properties items) inItems = .ok fill ∧ r = (Rule.mk own properties items).withFill fill := by
  cases spec with
  | object m =>
      rw [parseRule_object] at h
      obtain ⟨own, hown, h⟩ := seq_map.mp h
      obtain ⟨properties, hproperties, h⟩ := seq_map.mp h
      obtain ⟨items, hitems, h⟩ := seq_map.mp h
      obtain ⟨fill, hfill, h⟩ := seq_map.mp h
      exact ⟨m, own, properties, items, fill, rfl, hown, hproperties, hitems, hfill, (Except.ok.inj h).symm⟩
  | _ =>
      rw [parseRule.eq_def] at h
      exact nomatch h

mutual

theorem parseFields_vetted (spec : Json) (pre : String) (depth : Nat) (fields : Fields) (hkeyed : spec.Keyed)
    (h : parseFields spec pre depth = .ok fields) : fieldsVetted fields ∧ fieldsDistinct fields := by
  rw [parseFields.eq_def] at h
  split at h
  · next m =>
      split at h
      · exact nomatch h
      · obtain ⟨hvetted, hdistinct, -⟩ := parseMembers_vetted m pre depth fields hkeyed.1 hkeyed.2 h
        exact ⟨hvetted, hdistinct⟩
  · exact nomatch h
  termination_by sizeOf spec

theorem parseMembers_vetted (map : List (String × Json)) (pre : String) (depth : Nat) (fields : Fields)
    (hnodup : (map.map Prod.fst).Nodup) (hkeyed : membersKeyed map) (h : parseMembers map pre depth = .ok fields) :
    fieldsVetted fields ∧ fieldsDistinct fields ∧ fields.map Prod.fst = map.map Prod.fst := by
  rw [parseMembers.eq_def] at h
  split at h
  · obtain rfl := Except.ok.inj h
    exact ⟨trivial, trivial, rfl⟩
  · next name spec rest =>
      split at h
      · exact nomatch h
      · obtain ⟨rule, hrule, h⟩ := seq_map.mp h
        obtain ⟨fields', hfields, h⟩ := seq_map.mp h
        obtain rfl := Except.ok.inj h
        rw [List.map_cons, List.nodup_cons] at hnodup
        obtain ⟨hvetted, hdistinct⟩ := parseRule_vetted spec (join pre name) depth false rule hkeyed.1 hrule
        obtain ⟨hvetted', hdistinct', hnames⟩ := parseMembers_vetted rest pre depth fields' hnodup.2 hkeyed.2 hfields
        refine ⟨⟨hvetted, hvetted'⟩, ⟨?_, hdistinct, hdistinct'⟩, ?_⟩
        · rw [hnames]
          exact hnodup.1
        · rw [List.map_cons, List.map_cons, hnames]
  termination_by sizeOf map

theorem parseRule_vetted (spec : Json) (path : String) (depth : Nat) (inItems : Bool) (r : Rule) (hkeyed : spec.Keyed)
    (h : parseRule spec path depth inItems = .ok r) : r.Vetted ∧ r.Distinct := by
  obtain ⟨m, own, properties, items, fill, hspec, hown, hproperties, hitems, hfill, rfl⟩ := parseRule_ok h
  have hmembers : membersKeyed m := by
    rw [hspec] at hkeyed
    exact hkeyed.2
  have hlt : sizeOf m < sizeOf spec := by
    rw [hspec]
    simp
  have hp : propertiesVetted properties ∧ propertiesDistinct properties := by
    unfold parseProperties at hproperties
    split at hproperties
    · obtain rfl := Except.ok.inj hproperties
      exact ⟨trivial, trivial⟩
    · next p hp =>
        obtain ⟨fields, hfields, rfl⟩ := map_ok.mp hproperties
        have hsize := Members.sizeOf_lookup hp
        exact parseFields_vetted p path (depth + 1) fields (membersKeyed_lookup hmembers hp) hfields
  have hi : itemsDistinct items := by
    unfold parseItems at hitems
    split at hitems
    · obtain rfl := Except.ok.inj hitems
      trivial
    · next i hi =>
        obtain ⟨each, heach, rfl⟩ := map_ok.mp hitems
        have hsize := Members.sizeOf_lookup hi
        exact (parseRule_vetted i _ (depth + 1) true each (membersKeyed_lookup hmembers hi) heach).2
  exact ⟨vetted_withFill hown hp.1 hfill, hp.2, hi⟩
  termination_by sizeOf spec

end

theorem parseSchema_vetted {spec : Json} {fields : Fields} (hkeyed : spec.Keyed) (h : parseSchema spec = .ok fields) :
    fieldsVetted fields ∧ fieldsDistinct fields := by
  obtain ⟨fields', hfields, h⟩ := seq_map.mp h
  split at h
  · exact nomatch h
  · obtain rfl := Except.ok.inj h
    exact parseFields_vetted spec "" 0 fields' hkeyed hfields

/-- The schema that is read. -/
def Schema.read {spec : Json} {fields : Fields} (pattern : String) (hkeyed : spec.Keyed) (h : parseSchema spec = .ok fields) :
    Schema :=
  ⟨pattern, fields, (parseSchema_vetted hkeyed h).2⟩

end

section Samples

attribute [local instance] seconds oneZone plainTexts noPatterns

end Samples

end Rules

end KivaDb
