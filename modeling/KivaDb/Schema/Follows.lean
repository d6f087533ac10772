import KivaDb.Schema.Rules
import KivaDb.Alike

namespace KivaDb.Rules

theorem seq_ok {a b : Except String Unit} : (do a; b) = .ok () ↔ a = .ok () ∧ b = .ok () := by
  cases a with
  | error e => exact ⟨fun h => (nomatch h), fun h => (nomatch h.1)⟩
  | ok u => exact ⟨fun h => ⟨rfl, h⟩, And.right⟩

variable [Chrono] [Texts]

namespace Own

variable {o : Own} {v : Leaf} {path : String}

theorem checkType_ok [Zones] : o.checkType v path = .ok () ↔ ∀ ty, o.ty = some ty → ty.acceptsLeaf v = true := by
  unfold checkType
  rcases o.ty with _ | ty
  · simp
  · by_cases h : ty.acceptsLeaf v = true <;> simp [h]

/-- A number within the bounds. -/
structure Bounded (o : Own) (n : NumKey) : Prop where
  min : ∀ m, o.min = some m → n.cmpJson (.float m) ≠ .lt
  max : ∀ m, o.max = some m → n.cmpJson (.float m) ≠ .gt

theorem checkBounds_ok : o.checkBounds v path = .ok () ↔ ∀ n, numKey v = some n → o.Bounded n := by
  have hmin (n : NumKey) : o.checkMin n path = .ok () ↔ ∀ m, o.min = some m → n.cmpJson (.float m) ≠ .lt := by
    unfold checkMin
    rcases o.min with _ | m
    · simp
    · by_cases h : n.cmpJson (.float m) = .lt <;> simp [h]
  have hmax (n : NumKey) : o.checkMax n path = .ok () ↔ ∀ m, o.max = some m → n.cmpJson (.float m) ≠ .gt := by
    unfold checkMax
    rcases o.max with _ | m
    · simp
    · by_cases h : n.cmpJson (.float m) = .gt <;> simp [h]
  unfold checkBounds
  rcases numKey v with _ | n
  · simp
  · simp only [seq_ok, hmin, hmax, Option.some.injEq]
    constructor
    · rintro ⟨h, h'⟩ _ rfl
      exact ⟨h, h'⟩
    · intro h
      exact ⟨(h n rfl).min, (h n rfl).max⟩

theorem checkOneOf_ok : o.checkOneOf v path = .ok () ↔ ∀ values, o.oneOf = some values → listed values v = true := by
  unfold checkOneOf
  rcases o.oneOf with _ | values
  · simp
  · by_cases h : listed values v = true <;> simp [h]

/-- Where a value stands does not matter to whether its shape is right. -/
theorem checkShape_path (q : String) (h : o.checkShape v path = .ok ()) : o.checkShape v q = .ok () := by
  have hitems (len : Nat) (h : o.checkItems len path = .ok ()) : o.checkItems len q = .ok () := by
    unfold checkItems at h ⊢
    split at h
    · exact nomatch h
    · split at h
      · exact nomatch h
      · rfl
  have htext (s : String) (h : o.checkText s path = .ok ()) : o.checkText s q = .ok () := by
    unfold checkText at h ⊢
    simp only at h ⊢
    split at h
    · exact nomatch h
    · split at h
      · exact nomatch h
      · split at h
        · rfl
        · split at h
          · next hm => rw [if_pos hm]
          · exact nomatch h
  unfold checkShape at h ⊢
  split at h
  · exact htext _ h
  · exact hitems _ h
  · exact htext _ h
  · exact hitems _ h
  · rfl

variable [Zones]

/-- The value follows the rule itself, whatever its members and items. -/
def Passes (o : Own) (v : Leaf) : Prop := o.check v "" = .ok ()

theorem check_ok : o.check v path = .ok () ↔
    (isNull v && o.nullAllowed) = true ∨
      (∀ ty, o.ty = some ty → ty.acceptsLeaf v = true) ∧ (∀ n, numKey v = some n → o.Bounded n) ∧
        (∀ values, o.oneOf = some values → listed values v = true) ∧ o.checkShape v "" = .ok () := by
  unfold check
  split
  · next h => simp [h]
  · next h =>
      rw [seq_ok, seq_ok, seq_ok, checkType_ok, checkBounds_ok, checkOneOf_ok, or_iff_right h]
      refine and_congr_right fun _ => and_congr_right fun _ => and_congr_right fun _ => ?_
      exact ⟨checkShape_path "", checkShape_path path⟩

theorem check_passes : o.check v path = .ok () ↔ o.Passes v := by
  rw [Passes, check_ok, check_ok]

end Own

/-- The items of an array. -/
def items : Json → List Json
  | .array a => a
  | _ => []

/-- A rule holds of a value and of what is in it: `P` says what a rule asks of a value, `R`
what it asks where there is none. -/
structure Asks where
  P : Own → Json → Prop
  R : Own → Prop

mutual

def Rule.Holds (a : Asks) : Rule → Json → Prop
  | .mk own properties each, j => a.P own j ∧ itemsHold a each j ∧ propertiesHold a properties j

def itemsHold (a : Asks) : Option Rule → Json → Prop
  | none, _ => True
  | some each, j => ∀ x ∈ items j, each.Holds a x

def propertiesHold (a : Asks) : Option (List (String × Rule)) → Json → Prop
  | none, _ => True
  | some fields, .object m => fieldsHold a fields m
  | some _, _ => True

def fieldsHold (a : Asks) : List (String × Rule) → Members Json → Prop
  | [], _ => True
  | (name, rule) :: fields, m =>
      (match m.lookup name with
        | none => a.R rule.own
        | some j => rule.Holds a j) ∧ fieldsHold a fields m

end

/-- One of the two ways a document is read: as JSON, or as typed values. -/
structure Reading where
  leaf : Json → Leaf
  elements_eq : ∀ j, elements (leaf j) = (items j).map leaf
  object_eq : ∀ m, members (leaf (.object m)) = some fun n => (m.lookup n).map leaf
  other_eq : ∀ j, (∀ m, j ≠ .object m) → members (leaf j) = none

namespace Reading

def json : Reading where
  leaf := .json
  elements_eq j := by
    cases j with
    | array a => rfl
    | _ => rfl
  object_eq m := rfl
  other_eq j h := by
    cases j with
    | object m => exact absurd rfl (h m)
    | _ => rfl

def typed : Reading where
  leaf j := .doc (.fromJson j)
  elements_eq j := by
    cases j with
    | array a =>
        rw [Doc.fromJson_array, elements, items, List.map_map]
        rfl
    | object m =>
        rw [Doc.fromJson_object]
        rfl
    | number n => rcases Doc.fromNumber_cases n with ⟨x, h⟩ | ⟨x, h⟩ | ⟨x, h⟩ <;> rw [Doc.fromJson, h] <;> rfl
    | _ => rfl
  object_eq m := by
    rw [Doc.fromJson_object, members]
    congr
    funext n
    rw [Members.lookup_mapValues, Option.map_map]
    rfl
  other_eq j h := by
    cases j with
    | object m => exact absurd rfl (h m)
    | number n => rcases Doc.fromNumber_cases n with ⟨x, h⟩ | ⟨x, h⟩ | ⟨x, h⟩ <;> rw [Doc.fromJson, h] <;> rfl
    | _ => rfl

variable [Zones]

/-- What the rules ask of a document read this way. -/
def asks (r : Reading) : Asks where
  P o j := o.Passes (r.leaf j)
  R o := o.required = false

omit [Texts] [Zones] in
theorem checkEach_ok (r : Reading) {check : Leaf → String → Except String Unit} {Q : Json → Prop}
    (h : ∀ j path, check (r.leaf j) path = .ok () ↔ Q j) (path : String) (i : Nat) (js : List Json) :
    checkEach check path i (js.map r.leaf) = .ok () ↔ ∀ j ∈ js, Q j := by
  induction js generalizing i with
  | nil => simp [checkEach]
  | cons j js ih =>
      rw [List.map_cons, checkEach, seq_ok, h, ih]
      simp

mutual

theorem checkValue_ok (r : Reading) : ∀ (rule : Rule) (j : Json) (path : String),
    checkValue rule (r.leaf j) path = .ok () ↔ rule.Holds r.asks j
  | .mk own properties each, j, path => by
      rw [checkValue, seq_ok, seq_ok, Own.check_passes, r.checkInner_ok each, r.checkProperties_ok properties]
      rfl

theorem checkInner_ok (r : Reading) : ∀ (each : Option Rule) (j : Json) (path : String),
    checkInner each (r.leaf j) path = .ok () ↔ itemsHold r.asks each j
  | none, j, path => by simp [checkInner, itemsHold]
  | some each, j, path => by
      rw [checkInner, r.elements_eq, itemsHold]
      exact r.checkEach_ok (fun x p => r.checkValue_ok each x p) path 0 (items j)

theorem checkProperties_ok (r : Reading) : ∀ (properties : Option (List (String × Rule))) (j : Json) (path : String),
    checkProperties properties (r.leaf j) path = .ok () ↔ propertiesHold r.asks properties j
  | none, j, path => by simp [checkProperties, propertiesHold]
  | some fields, j, path => by
      cases j with
      | object m =>
          rw [checkProperties, r.object_eq, propertiesHold]
          exact r.checkFields_ok fields m path
      | _ =>
          rw [checkProperties, r.other_eq]
          · simp [propertiesHold]
          · exact fun _ h => nomatch h

theorem checkFields_ok (r : Reading) : ∀ (fields : List (String × Rule)) (m : Members Json) (pre : String),
    checkFields fields (fun n => (m.lookup n).map r.leaf) pre = .ok () ↔ fieldsHold r.asks fields m
  | [], m, pre => by simp [checkFields, fieldsHold]
  | (name, rule) :: fields, m, pre => by
      rw [checkFields, fieldsHold]
      rcases m.lookup name with _ | j
      · simp only [Option.map_none]
        cases hr : rule.own.required with
        | true => simp [asks, hr, bind, Except.bind]
        | false => simpa [asks, hr, bind, Except.bind] using r.checkFields_ok fields m pre
      · simp only [Option.map_some]
        exact seq_ok.trans (and_congr (r.checkValue_ok rule j _) (r.checkFields_ok fields m pre))

end

end Reading

end KivaDb.Rules
