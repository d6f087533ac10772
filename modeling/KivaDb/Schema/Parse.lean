import KivaDb.Schema.Conform

namespace KivaDb

theorem F64.above_iff {a b : F64} : Num.Ratio.cmp (.ofFloat a) (.ofFloat b) = .gt ↔ b.value < a.value := by
  rw [Num.Ratio.cmp_eq, compare_gt_iff_gt]
  rfl

theorem Members.sizeOf_lookup {m : Members Json} {k : String} {j : Json} (h : m.lookup k = some j) : sizeOf j < sizeOf m := by
  induction m with
  | nil => exact nomatch h
  | cons p m ih =>
      obtain ⟨n, x⟩ := p
      rw [Members.lookup_cons] at h
      split at h
      · cases h
        simp
        omega
      · have hlt := ih h
        simp
        omega

namespace Rules

/-- Longest `pattern` accepted. -/
def maxPatternLen : Nat := 1000

/-- How deep `properties` and `items` may nest. -/
def maxDepth : Nat := 16

def FieldType.parse : String → Option FieldType
  | "string" => some string
  | "number" => some number
  | "integer" => some integer
  | "boolean" => some boolean
  | "null" => some null
  | "array" => some array
  | "object" => some object
  | "date" => some date
  | "datetime" => some dateTime
  | "time" => some time
  | "int" => some int
  | "float" => some float
  | "decimal" => some decimal
  | "any" => some any
  | _ => none

/-- Regular expressions as they are built from their texts. -/
class Patterns [Texts] where
  build : String → Except String Texts.Regex

/-- Where no text is a pattern. -/
abbrev noPatterns [Texts] : Patterns where
  build _ := .error "no patterns"

def knownKeys : List String :=
  ["type", "required", "nullable", "unique", "min", "max", "minLength", "maxLength", "minItems", "maxItems", "enum", "pattern",
    "default", "properties", "items"]

section

variable (m : Members Json) (path : String)

def checkKeys : Except String Unit :=
  match (m.map Prod.fst).find? fun k => !knownKeys.contains k with
  | none => .ok ()
  | some k =>
      let rules := ", ".intercalate knownKeys
      .error s!"{path}: unknown rule '{k}' (rules: {rules})"

def flag (k : String) : Except String Bool :=
  match m.lookup k with
  | none => .ok false
  | some (.bool b) => .ok b
  | some _ => .error s!"{path}: '{k}' is true or false"

def number (k : String) : Except String (Option F64) :=
  match m.lookup k with
  | none => .ok none
  | some (.number n) => .ok (some n.asF64)
  | some _ => .error s!"{path}: '{k}' is a number"

def count (k : String) : Except String (Option Nat) :=
  match m.lookup k with
  | none => .ok none
  | some (.number (.posInt n)) => .ok (some n.toNat)
  | some _ => .error s!"{path}: '{k}' is a whole number"

def typeOf : Except String (Option FieldType) :=
  match m.lookup "type" with
  | none => .ok none
  | some (.string s) =>
      match FieldType.parse s with
      | some ty => .ok (some ty)
      | none =>
          .error (s!"{path}: unknown type '{s}' (types: string, number, integer, boolean, null, array, object, date, " ++
            "datetime, time, any)")
  | some _ => .error (s!"{path}: 'type' is a name such as " ++ "\"string\"")

def only (what : String) (ok : Bool) (types : String) : Except String Unit :=
  if (m.lookup what).isSome ∧ ok = false then .error s!"{path}: '{what}' applies to {types}: give the field that type" else .ok ()

/-- The keys that go with some types only. -/
def checkApplies (ty : Option FieldType) : Except String Unit := do
  let numeric := ty = some .number ∨ ty = some .integer ∨ ty = some .int ∨ ty = some .float ∨ ty = some .decimal
  only m path "min" numeric "numbers (type number, integer, int, float or decimal)"
  only m path "max" numeric "numbers (type number, integer, int, float or decimal)"
  let text := ty = some .string
  only m path "minLength" text "strings"
  only m path "maxLength" text "strings"
  only m path "pattern" text "strings"
  let array := ty = some .array
  only m path "minItems" array "arrays"
  only m path "maxItems" array "arrays"
  only m path "items" array "arrays"
  only m path "properties" (ty = some .object) "objects"

end

variable [Chrono] [Zones] [Texts]

section

variable (m : Members Json) (path : String)

/-- The flags, the bounds and the lengths of a rule. -/
def parseOwn : Except String Own := do
  let ty ← typeOf m path
  let required ← flag m path "required"
  let nullable ← flag m path "nullable"
  let unique ← flag m path "unique"
  let min ← number m path "min"
  let max ← number m path "max"
  let minLength ← count m path "minLength"
  let maxLength ← count m path "maxLength"
  let minItems ← count m path "minItems"
  let maxItems ← count m path "maxItems"
  return ⟨ty, required, nullable, unique, min, max, minLength, maxLength, minItems, maxItems, none, none, none⟩

def checkRange (o : Own) : Except String Unit :=
  match o.min, o.max with
  | some a, some b =>
      if Num.Ratio.cmp (.ofFloat a) (.ofFloat b) = .gt then
        let low := Texts.floatText a
        let high := Texts.floatText b
        .error s!"{path}: min ({low}) is above max ({high})"
      else .ok ()
  | _, _ => .ok ()

def checkLengths (o : Own) : Except String Unit :=
  match o.minLength, o.maxLength with
  | some a, some b => if b < a then .error s!"{path}: minLength ({a}) is above maxLength ({b})" else .ok ()
  | _, _ => .ok ()

def checkUnique (o : Own) (inItems : Bool) : Except String Unit :=
  if o.unique then
    if inItems then .error s!"{path}: 'unique' applies to a field, not to the items of an array"
    else if o.ty = some .array ∨ o.ty = some .object then
      .error s!"{path}: a unique field holds a text, a number, a boolean or a date"
    else .ok ()
  else .ok ()

def parseEnum : Except String (Option (List Json)) :=
  match m.lookup "enum" with
  | none => .ok none
  | some (.array values) => if values = [] then .error s!"{path}: 'enum' needs at least one value" else .ok (some values)
  | some _ => .error s!"{path}: 'enum' is a list of the values allowed"

def parsePattern [Patterns] : Except String (Option Texts.Regex) :=
  match m.lookup "pattern" with
  | none => .ok none
  | some (.string p) =>
      if maxPatternLen < p.utf8ByteSize then .error s!"{path}: 'pattern' is at most {maxPatternLen} characters"
      else
        match Patterns.build p with
        | .ok re => .ok (some re)
        | .error e => .error s!"{path}: 'pattern' is not a usable regular expression: {e}"
  | some _ => .error s!"{path}: 'pattern' is a regular expression, as a text"

/-- What a rule says of the value itself, its default apart. -/
def parseOwnWhole [Patterns] (inItems : Bool) : Except String Own := do
  checkKeys m path
  let o ← parseOwn m path
  checkApplies m path o.ty
  checkRange path o
  checkLengths path o
  checkUnique path o inItems
  let oneOf ← parseEnum m path
  let pattern ← parsePattern m path
  return { o with oneOf := oneOf, pattern := pattern }

omit [Chrono] [Zones] in
theorem parseOwnWhole_ok {m : Members Json} {path : String} [Patterns] {inItems : Bool} {own : Own} :
    parseOwnWhole m path inItems = .ok own ↔ ∃ o oneOf pattern, checkKeys m path = .ok () ∧ parseOwn m path = .ok o ∧
      checkApplies m path o.ty = .ok () ∧ checkRange path o = .ok () ∧ checkLengths path o = .ok () ∧
      checkUnique path o inItems = .ok () ∧ parseEnum m path = .ok oneOf ∧ parsePattern m path = .ok pattern ∧
      own = { o with oneOf := oneOf, pattern := pattern } := by
  unfold parseOwnWhole
  constructor
  · intro h
    obtain ⟨_, hkeys, h⟩ := seq_map.mp h
    obtain ⟨o, ho, h⟩ := seq_map.mp h
    obtain ⟨_, happlies, h⟩ := seq_map.mp h
    obtain ⟨_, hrange, h⟩ := seq_map.mp h
    obtain ⟨_, hlengths, h⟩ := seq_map.mp h
    obtain ⟨_, hunique, h⟩ := seq_map.mp h
    obtain ⟨oneOf, henum, h⟩ := seq_map.mp h
    obtain ⟨pattern, hpattern, h⟩ := seq_map.mp h
    exact ⟨o, oneOf, pattern, hkeys, ho, happlies, hrange, hlengths, hunique, henum, hpattern, (Except.ok.inj h).symm⟩
  · rintro ⟨o, oneOf, pattern, hkeys, ho, happlies, hrange, hlengths, hunique, henum, hpattern, rfl⟩
    refine seq_map.mpr ⟨(), hkeys, seq_map.mpr ⟨o, ho, seq_map.mpr ⟨(), happlies, seq_map.mpr ⟨(), hrange, ?_⟩⟩⟩⟩
    exact seq_map.mpr ⟨(), hlengths, seq_map.mpr ⟨(), hunique, seq_map.mpr ⟨oneOf, henum, seq_map.mpr ⟨pattern, hpattern, rfl⟩⟩⟩⟩

/-- The only dynamic defaults, for the type they belong to; the same text is a plain value for any
other field. -/
def dynamicDefault (ty : Option FieldType) (d : Json) : Option Fill :=
  match ty, d with
  | some .dateTime, .string s => if s = "now()" ∨ s = "current_timestamp" then some .now else none
  | some .date, .string s => if s = "today()" ∨ s = "current_date" then some .today else none
  | some .time, .string s => if s = "current_time" then some .currentTime else none
  | _, _ => none

def parseDefault (r : Rule) (inItems : Bool) : Except String (Option Fill) :=
  match m.lookup "default" with
  | none => .ok none
  | some d =>
      if inItems then .error s!"{path}: an item of an array has no default"
      else
        match dynamicDefault r.own.ty d with
        | some fill => .ok (some fill)
        | none =>
            match checkValue r (.json d) path with
            | .ok _ => .ok (some (.value d))
            | .error e => .error s!"the default does not follow the rule: {e}"

end

def Rule.withFill (fill : Option Fill) : Rule → Rule
  | .mk own properties items => .mk { own with fill := fill } properties items

variable [Patterns]

mutual

def parseFields (spec : Json) (pre : String) (depth : Nat) : Except String Fields :=
  match spec with
  | .object map =>
      if maxDepth < depth then .error s!"{pre}: rules nest at most {maxDepth} levels deep" else parseMembers map pre depth
  | _ =>
      let what := if pre.isEmpty then "a schema" else s!"properties of {pre}"
      .error (s!"{what} must be a JSON object: " ++ "\x7b\"<field>\": \x7b\"type\": ...\x7d\x7d")
  termination_by sizeOf spec

def parseMembers (map : List (String × Json)) (pre : String) (depth : Nat) : Except String Fields :=
  match map with
  | [] => .ok []
  | (name, rule) :: rest =>
      if name.isEmpty then .error "a field name cannot be empty"
      else do
        let rule ← parseRule rule (join pre name) depth false
        let fields ← parseMembers rest pre depth
        return (name, rule) :: fields
  termination_by sizeOf map

def parseRule (spec : Json) (path : String) (depth : Nat) (inItems : Bool) : Except String Rule :=
  match spec with
  | .object m => do
      let own ← parseOwnWhole m path inItems
      let properties ←
        (match h : m.lookup "properties" with
        | none => .ok none
        | some p =>
            have hsize := Members.sizeOf_lookup h
            (parseFields p path (depth + 1)).map some)
      let items ←
        (match h : m.lookup "items" with
        | none => .ok none
        | some i =>
            have hsize := Members.sizeOf_lookup h
            (parseRule i s!"{path}[]" (depth + 1) true).map some)
      let r := Rule.mk own properties items
      let fill ← parseDefault m path r inItems
      return r.withFill fill
  | _ => .error (s!"{path}: a rule is a JSON object such as " ++ "\x7b\"type\": \"string\", \"required\": true\x7d")
  termination_by sizeOf spec

end

/-- The rules of the members of a value. -/
def parseProperties (m : Members Json) (path : String) (depth : Nat) : Except String (Option Fields) :=
  match m.lookup "properties" with
  | none => .ok none
  | some p => (parseFields p path (depth + 1)).map some

/-- The rule of the items of a value. -/
def parseItems (m : Members Json) (path : String) (depth : Nat) : Except String (Option Rule) :=
  match m.lookup "items" with
  | none => .ok none
  | some i => (parseRule i s!"{path}[]" (depth + 1) true).map some

theorem parseRule_object (m : Members Json) (path : String) (depth : Nat) (inItems : Bool) :
    parseRule (.object m) path depth inItems = (do
      let own ← parseOwnWhole m path inItems
      let properties ← parseProperties m path depth
      let items ← parseItems m path depth
      let fill ← parseDefault m path (.mk own properties items) inItems
      return (Rule.mk own properties items).withFill fill) := by
  rw [parseRule]
  congr 1
  funext own
  congr 1
  · unfold parseProperties
    split
    · next h => rw [h]
    · next h => simp only [h]
  · funext properties
    congr 1
    unfold parseItems
    split
    · next h => rw [h]
    · next h => simp only [h]

/-- Reads a schema. -/
def parseSchema (spec : Json) : Except String Fields := do
  let fields ← parseFields spec "" 0
  if fields.isEmpty then .error "a schema names at least one field" else return fields

end Rules

end KivaDb

namespace KivaDb

namespace Rules

section

variable [Texts] {P : Rule → Prop}

mutual

/-- What holds of a rule where it holds of the rules of its members holds of every rule. -/
theorem Rule.ofMembers (h : ∀ own properties each,
    (∀ fields, properties = some fields → ∀ name rule, (name, rule) ∈ fields → P rule) → P (.mk own properties each)) :
    ∀ rule, P rule
  | .mk own none each => h own none each fun _ hnone => nomatch hnone
  | .mk own (some fields) each => h own (some fields) each fun _ heq name rule hmem =>
      Rule.ofFields h fields name rule (Option.some.inj heq ▸ hmem)

theorem Rule.ofFields (h : ∀ own properties each,
    (∀ fields, properties = some fields → ∀ name rule, (name, rule) ∈ fields → P rule) → P (.mk own properties each)) :
    ∀ (fields : List (String × Rule)) name rule, (name, rule) ∈ fields → P rule
  | [], _, _, hmem => nomatch hmem
  | (n, r) :: fields, name, rule, hmem => by
      rcases List.mem_cons.mp hmem with heq | hmem
      · rw [(Prod.mk.inj heq).2]
        exact Rule.ofMembers h r
      · exact Rule.ofFields h fields name rule hmem

end

theorem fieldsDistinct_mem {fields : Fields} (h : fieldsDistinct fields) {name : String} {rule : Rule}
    (hmem : (name, rule) ∈ fields) : rule.Distinct := by
  induction fields with
  | nil => cases hmem
  | cons p fields ih =>
      obtain ⟨n, r⟩ := p
      obtain ⟨-, hrule, hfields⟩ := h
      rcases List.mem_cons.mp hmem with heq | hmem
      · rwa [(Prod.mk.inj heq).2]
      · exact ih hfields hmem

end

variable [Chrono] [Zones] [Texts]

/-- What a rule finds in a document, given its default. -/
def givenAt (at_ : Moment) (rule : Rule) (x : Option Json) : Option Json := x.or (rule.own.fill.map (defaultValue · at_))

theorem lookup_withDefault_self (at_ : Moment) (rule : Rule) (name : String) (m : Members Json) :
    (withDefault rule.own name at_ m).lookup name = givenAt at_ rule (m.lookup name) := by
  unfold withDefault givenAt
  rcases hm : m.lookup name with _ | j
  · rcases rule.own.fill with _ | d
    · exact hm
    · rw [Members.lookup_insert, if_pos rfl]
      rfl
  · exact hm

theorem lookup_filled_mem (at_ : Moment) {fields : Fields} (h : fieldsDistinct fields) {name : String} {rule : Rule}
    (hmem : (name, rule) ∈ fields) (m : Members Json) :
    (filled at_ fields m).lookup name = (givenAt at_ rule (m.lookup name)).map (filledRule at_ rule) := by
  induction fields generalizing m with
  | nil => cases hmem
  | cons p fields ih =>
      obtain ⟨n, r⟩ := p
      obtain ⟨hnot, -, hfields⟩ := h
      rw [filled]
      rcases List.mem_cons.mp hmem with heq | hmem
      · obtain ⟨rfl, rfl⟩ := Prod.mk.inj heq
        rw [lookup_filled at_ fields _ hnot, ← lookup_withDefault_self]
        rcases hd : (withDefault rule.own name at_ m).lookup name with _ | j
        · exact hd
        · rw [Members.lookup_insert, if_pos rfl]
          rfl
      · have hne : name ≠ n := by
          intro heq
          rw [← heq] at hnot
          exact hnot (List.mem_map_of_mem (f := Prod.fst) hmem)
        rw [ih hfields hmem, ← lookup_withDefault r.own at_ m hne]
        split
        · rfl
        · rw [Members.lookup_insert, if_neg hne]

end Rules

end KivaDb
