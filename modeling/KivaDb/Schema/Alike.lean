import KivaDb.Schema.Follows

namespace KivaDb.Rules

open Doc

section

variable [Texts]

/-- What is asked everywhere, and required fields are another matter. -/
def everywhere (P : Own → Json → Prop) : Asks where
  P := P
  R _ := True

def both (a b : Asks) : Asks where
  P o j := a.P o j ∧ b.P o j
  R o := a.R o ∧ b.R o

mutual

theorem holds_both (a b : Asks) : ∀ (rule : Rule) (j : Json), rule.Holds (both a b) j ↔ rule.Holds a j ∧ rule.Holds b j
  | .mk own properties each, j => by
      rw [Rule.Holds, Rule.Holds, Rule.Holds, itemsHold_both a b each, propertiesHold_both a b properties]
      simp only [both]
      tauto

theorem itemsHold_both (a b : Asks) : ∀ (each : Option Rule) (j : Json),
    itemsHold (both a b) each j ↔ itemsHold a each j ∧ itemsHold b each j
  | none, j => by simp [itemsHold]
  | some each, j => by
      rw [itemsHold, itemsHold, itemsHold]
      simp only [holds_both a b each]
      exact forall₂_and

theorem propertiesHold_both (a b : Asks) : ∀ (properties : Option (List (String × Rule))) (j : Json),
    propertiesHold (both a b) properties j ↔ propertiesHold a properties j ∧ propertiesHold b properties j
  | none, j => by simp [propertiesHold]
  | some fields, j => by
      cases j with
      | object m => exact fieldsHold_both a b fields m
      | _ => simp [propertiesHold]

theorem fieldsHold_both (a b : Asks) : ∀ (fields : List (String × Rule)) (m : Members Json),
    fieldsHold (both a b) fields m ↔ fieldsHold a fields m ∧ fieldsHold b fields m
  | [], m => by simp [fieldsHold]
  | (name, rule) :: fields, m => by
      rw [fieldsHold, fieldsHold, fieldsHold, fieldsHold_both a b fields]
      rcases m.lookup name with _ | j
      · simp only [both]
        tauto
      · simp only [holds_both a b rule]
        tauto

end

end

variable [Chrono]

theorem isNull_fromJson (j : Json) : isNull (.doc (fromJson j)) = isNull (.json j) := by
  cases j with
  | number n => rcases fromNumber_cases n with ⟨x, h⟩ | ⟨x, h⟩ | ⟨x, h⟩ <;> rw [fromJson, h] <;> rfl
  | _ => rfl

/-- What a JSON number becomes. -/
theorem fromNumber_kinds (n : Number) :
    (∃ i, n.asI64 = some i ∧ fromNumber n = int i) ∨
      (∃ u, n = .posInt u ∧ 2 ^ 63 ≤ u.toNat ∧ n.asI64 = none ∧ fromNumber n = decimal (NumKey.ofU64 u)) ∨
      ∃ f, n = .float f ∧ fromNumber n = float f := by
  cases n with
  | posInt u =>
      by_cases h : u.toNat < 2 ^ 63
      · refine .inl ⟨u.toInt64, if_pos h, ?_⟩
        simp only [fromNumber, Number.asI64, if_pos h]
      · exact .inr (.inl ⟨u, rfl, by omega, if_neg h, fromNumber_beyond h⟩)
  | negInt i => exact .inl ⟨i, rfl, rfl⟩
  | float f => exact .inr (.inr ⟨f, rfl, rfl⟩)

theorem asI64_ofInt (i : Int64) : (Number.ofInt i).asI64 = some i := by
  rcases fromNumber_kinds (Number.ofInt i) with ⟨i', h, hd⟩ | ⟨u, -, -, -, hd⟩ | ⟨f, -, hd⟩
  · rw [fromNumber_ofInt, int.injEq] at hd
    rw [h, hd]
  · rw [fromNumber_ofInt] at hd
    exact nomatch hd
  · rw [fromNumber_ofInt] at hd
    exact nomatch hd

omit [Chrono] in
theorem cmpJson_eq (k : NumKey) (n : Number) : k.cmpJson n = compare k.value (NumKey.json n).value := by
  rw [← NumKey.cmp_eq]
  cases k <;> rfl

omit [Chrono] in
theorem value_asI64 {n : Number} {i : Int64} (h : n.asI64 = some i) : (NumKey.json n).value = (i.toInt : ℚ) := by
  cases n with
  | posInt u =>
      rw [Number.asI64] at h
      split at h
      · next hu =>
          rw [← Option.some.inj h, toInt_toInt64 hu]
          simp [NumKey.value]
      · cases h
  | negInt j =>
      rw [← Option.some.inj h]
      rfl
  | float f => cases h

/-- A number has one value, whatever it is written as. -/
theorem numKey_value (j : Json) :
    (numKey (.doc (fromJson j))).map NumKey.value = (numKey (.json j)).map NumKey.value := by
  cases j with
  | number n =>
      rw [fromJson]
      rcases fromNumber_kinds n with ⟨i, hi, hd⟩ | ⟨u, rfl, hu, hi, hd⟩ | ⟨f, rfl, hd⟩
      · rw [hd, numKey, numKey, Option.map_some, Option.map_some, value_asI64 hi, value_asI64 (asI64_ofInt i)]
      · rw [hd, numKey, numKey, Option.map_some, Option.map_some]
        simp [NumKey.value, NumKey.ofU64]
      · rw [hd]
        rfl
  | array a =>
      rw [fromJson_array]
      rfl
  | object m =>
      rw [fromJson_object]
      rfl
  | _ => rfl

/-- The kind and the value of a number are those of its plain JSON. -/
theorem exact_plain (n : Number) : ∃ m, (fromNumber n).toPlainJson = .number m ∧ Num.exact m = Num.exact n := by
  have hint {m : Number} {i : Int64} (h : m.asI64 = some i) : Num.exact m = .int i.toInt := by
    cases m with
    | posInt u =>
        rw [Number.asI64] at h
        split at h
        · next hu => rw [← Option.some.inj h, toInt_toInt64 hu, Num.exact]
        · cases h
    | negInt j =>
        rw [← Option.some.inj h]
        rfl
    | float f => cases h
  rcases fromNumber_kinds n with ⟨i, hi, hd⟩ | ⟨u, rfl, hu, hi, hd⟩ | ⟨f, rfl, hd⟩
  · exact ⟨.ofInt i, by rw [hd]; rfl, by rw [hint hi, hint (asI64_ofInt i)]⟩
  · refine ⟨.posInt u, ?_, rfl⟩
    rw [hd, toPlainJson, u64BeyondI64_ofU64 (by omega)]
  · exact ⟨.float f, by rw [hd]; rfl, rfl⟩

theorem plain_array (a : List Json) : (fromJson (.array a)).toPlainJson = .array (a.map fun j => (fromJson j).toPlainJson) := by
  rw [fromJson_array, toPlainJson, listJson_eq_map, List.map_map]
  rfl

theorem plain_object (m : Members Json) :
    (fromJson (.object m)).toPlainJson = .object (Members.mapValues (fun j => (fromJson j).toPlainJson) m) := by
  rw [fromJson_object, toPlainJson, membersJson_eq_map, Members.mapValues, Members.mapValues, List.map_map]
  rfl

mutual

/-- A document equals what its plain JSON equals. -/
theorem same_plain : ∀ x j : Json, x.same (fromJson j).toPlainJson = x.same j
  | x, .array b => by
      rw [plain_array]
      cases x with
      | array a => exact sameItems_plain a b
      | _ => rfl
  | x, .object b => by
      rw [plain_object]
      cases x with
      | object a =>
          rw [Json.same, Json.same, sameMembers_plain a b, Members.mapValues, List.length_map]
      | _ => rfl
  | x, .number n => by
      obtain ⟨m, hm, hexact⟩ := exact_plain n
      rw [fromJson, hm]
      cases x with
      | number a => rw [Json.same, Json.same, hexact]
      | _ => rfl
  | x, .null => rfl
  | x, .bool b => rfl
  | x, .string s => rfl

theorem sameItems_plain : ∀ a b : List Json,
    Json.sameItems a (b.map fun j => (fromJson j).toPlainJson) = Json.sameItems a b
  | [], [] => rfl
  | [], y :: ys => rfl
  | x :: xs, [] => rfl
  | x :: xs, y :: ys => by
      rw [List.map_cons, Json.sameItems, Json.sameItems, same_plain x y, sameItems_plain xs ys]

theorem sameMembers_plain : ∀ a b : Members Json,
    Json.sameMembers a (Members.mapValues (fun j => (fromJson j).toPlainJson) b) = Json.sameMembers a b
  | [], b => rfl
  | (k, x) :: xs, b => by
      rw [Json.sameMembers, Json.sameMembers, sameMembers_plain xs b, Members.lookup_mapValues]
      rcases b.lookup k with _ | y
      · rfl
      · rw [Option.map_some, Option.any_some, Option.any_some, same_plain x y]

end

variable [Zones]

omit [Chrono] [Zones] in
theorem isWhole_asF64 {n : Number} {i : Int64} (h : n.asI64 = some i) : n.asF64.isWhole = true := by
  cases n with
  | posInt u => exact F64.isWhole_ofInt _
  | negInt j => exact F64.isWhole_ofInt _
  | float f => exact nomatch h

/-- An integer is of the same types whatever it is written as. -/
theorem accepts_int (ty : FieldType) {n : Number} {i : Int64} (h : n.asI64 = some i) :
    ty.accepts (.number n) = decide (ty ∈ [.any, .number, .integer, .int]) := by
  cases ty with
  | integer => exact isWhole_asF64 h
  | int => exact congrArg Option.isSome h
  | decimal =>
      show (n.asU64.isSome && n.asI64.isNone) = false
      rw [h, Option.isNone_some, Bool.and_false]
  | float =>
      cases n with
      | float f => exact nomatch h
      | _ => rfl
  | _ => rfl

theorem accepts_fromJson (ty : FieldType) (j : Json) : ty.acceptsLeaf (.doc (fromJson j)) = ty.accepts j := by
  cases j with
  | number n =>
      rw [fromJson]
      rcases fromNumber_kinds n with ⟨i, hi, hd⟩ | ⟨u, rfl, hu, hi, hd⟩ | ⟨f, rfl, hd⟩
      · rw [hd, accepts_int ty hi]
        have hplain := accepts_int ty (asI64_ofInt i)
        cases ty with
        | string => exact hplain
        | boolean => exact hplain
        | null => exact hplain
        | array => exact hplain
        | object => exact hplain
        | date => exact hplain
        | dateTime => exact hplain
        | time => exact hplain
        | float => exact hplain
        | decimal => exact hplain
        | _ => rfl
      · rw [hd]
        cases ty with
        | integer =>
            show (NumKey.ofU64 u).isWhole = (F64.ofInt u.toNat).isWhole
            rw [F64.isWhole_ofInt]
            exact decide_eq_true (Int.emod_one _)
        | int =>
            show false = (Number.asI64 (.posInt u)).isSome
            rw [hi]
            rfl
        | decimal =>
            show true = ((Number.asU64 (.posInt u)).isSome && (Number.asI64 (.posInt u)).isNone)
            rw [hi]
            rfl
        | _ => rfl
      · rw [hd]
        cases ty with
        | _ => rfl
  | array a =>
      rw [fromJson_array]
      cases ty <;> rfl
  | object m =>
      rw [fromJson_object]
      cases ty <;> rfl
  | _ => cases ty <;> rfl

variable [Texts]

namespace Own

variable {o : Own}

omit [Chrono] [Zones] in
theorem Bounded.congr {k k' : NumKey} (hv : k.value = k'.value) (h : o.Bounded k) : o.Bounded k' := by
  refine ⟨fun m hm => ?_, fun m hm => ?_⟩
  · rw [cmpJson_eq, ← hv, ← cmpJson_eq]
    exact h.min m hm
  · rw [cmpJson_eq, ← hv, ← cmpJson_eq]
    exact h.max m hm

omit [Zones] in
theorem bounded_fromJson (j : Json) :
    (∀ n, numKey (.doc (fromJson j)) = some n → o.Bounded n) ↔ ∀ n, numKey (.json j) = some n → o.Bounded n := by
  have hvalue := numKey_value j
  constructor
  · intro h n hn
    rw [hn, Option.map_some, Option.map_eq_some_iff] at hvalue
    obtain ⟨k, hk, hkv⟩ := hvalue
    exact (h k hk).congr hkv
  · intro h n hn
    rw [hn, Option.map_some] at hvalue
    obtain ⟨k, hk, hkv⟩ := Option.map_eq_some_iff.mp hvalue.symm
    exact (h k hk).congr hkv

omit [Zones] in
theorem checkShape_fromJson (j : Json) (path : String) :
    o.checkShape (.doc (fromJson j)) path = o.checkShape (.json j) path := by
  cases j with
  | number n => rcases fromNumber_cases n with ⟨x, h⟩ | ⟨x, h⟩ | ⟨x, h⟩ <;> rw [fromJson, h] <;> rfl
  | array a =>
      rw [fromJson_array, checkShape, checkShape, List.length_map]
  | object m =>
      rw [fromJson_object]
      rfl
  | _ => rfl

omit [Texts] [Zones] in
/-- Where JSON and typed values are listed by one test. -/
theorem listed_fromJson (values : List Json) {j : Json} (h : ∀ d, fromJson j ≠ decimal d) :
    listed values (.doc (fromJson j)) = listed values (.json j) := by
  have hdec : Leaf.decimal? (.doc (fromJson j)) = none := by
    unfold Leaf.decimal?
    split
    · next d heq => exact absurd (Leaf.doc.inj heq) (h d)
    · rfl
  have hplain : listed values (.doc (fromJson j)) = values.any fun x => x.same (fromJson j).toPlainJson := by
    rw [listed, hdec]
    rfl
  rw [hplain]
  show _ = values.any fun x => x.same j
  congr 1
  funext x
  exact same_plain x j

omit [Chrono] [Texts] [Zones] in
theorem toInt_ne {u : UInt64} (hu : 2 ^ 63 ≤ u.toNat) (i : Int64) : i.toInt ≠ u.toNat := by
  have := i.toInt_lt
  omega

omit [Texts] [Zones] in
theorem listed_beyond (values : List Json) {u : UInt64} (hu : 2 ^ 63 ≤ u.toNat) :
    listed values (.json (.number (.posInt u))) = true ↔ .number (.posInt u) ∈ values := by
  have hsame (x : Json) : x.same (.number (.posInt u)) = true ↔ x = .number (.posInt u) := by
    cases x with
    | number a =>
        cases a with
        | posInt v =>
            simp only [Json.same, Num.exact, decide_eq_true_eq, Json.number.injEq, Number.posInt.injEq,
              Int.natCast_inj, UInt64.toNat_inj]
        | negInt i => simp [Json.same, Num.exact, toInt_ne hu i]
        | float f => simp [Json.same, Num.exact]
    | _ => simp [Json.same]
  show (values.any fun x => x.same (.number (.posInt u))) = true ↔ _
  rw [List.any_eq_true]
  constructor
  · rintro ⟨x, hx, heq⟩
    rwa [← (hsame x).mp heq]
  · intro h
    exact ⟨_, h, (hsame _).mpr rfl⟩

omit [Texts] [Zones] in
theorem listed_decimal (values : List Json) {u : UInt64} (hu : 2 ^ 63 ≤ u.toNat) :
    listed values (.doc (decimal (NumKey.ofU64 u))) = true ↔
      .number (.posInt u) ∈ values ∨ ∃ f : F64, .number (.float f) ∈ values ∧ f.value = u.toNat := by
  have hkey (m : Number) : (NumKey.decimal (NumKey.ofU64 u)).cmpJson m = .eq ↔
      m = .posInt u ∨ ∃ f, m = .float f ∧ f.value = u.toNat := by
    have hvalue : (NumKey.decimal (NumKey.ofU64 u)).value = u.toNat := by simp [NumKey.value, NumKey.ofU64]
    rw [cmpJson_eq, compare_eq_iff_eq, hvalue]
    cases m with
    | posInt v =>
        simp only [NumKey.value, Nat.cast_inj, UInt64.toNat_inj, Number.posInt.injEq, reduceCtorEq, false_and,
          exists_false, or_false]
        exact eq_comm
    | negInt i =>
        have hne : ((u.toNat : Nat) : ℚ) ≠ (i.toInt : ℚ) := by
          have := toInt_ne hu i
          exact_mod_cast this.symm
        simp [NumKey.value, hne]
    | float f => simp [NumKey.value, eq_comm]
  unfold listed
  dsimp only [Leaf.decimal?, numKey]
  rw [List.any_eq_true]
  constructor
  · rintro ⟨x, hx, heq⟩
    split at heq
    · next m =>
        rcases (hkey m).mp (of_decide_eq_true heq) with rfl | ⟨f, rfl, hf⟩
        · exact .inl hx
        · exact .inr ⟨f, hx, hf⟩
    · cases heq
  · rintro (hx | ⟨f, hx, hf⟩)
    · exact ⟨_, hx, decide_eq_true ((hkey _).mpr (.inl rfl))⟩
    · exact ⟨_, hx, decide_eq_true ((hkey _).mpr (.inr ⟨f, rfl, hf⟩))⟩

/-- An integer beyond `i64` that follows the other rules of its field, whose value the list
names as a float and not as that integer. -/
def Confused (o : Own) (j : Json) : Prop :=
  ∃ (u : UInt64) (values : List Json), j = .number (.posInt u) ∧ 2 ^ 63 ≤ u.toNat ∧
    (∀ ty, o.ty = some ty → ty.accepts j = true) ∧ o.Bounded (.json (.posInt u)) ∧ o.oneOf = some values ∧
    (∃ f : F64, .number (.float f) ∈ values ∧ f.value = u.toNat) ∧ .number (.posInt u) ∉ values

/-- What follows the rules, of the integers beyond `i64`. -/
theorem passes_beyond {u : UInt64} (hu : 2 ^ 63 ≤ u.toNat) : o.Passes (.json (.number (.posInt u))) ↔
    (∀ ty, o.ty = some ty → ty.accepts (.number (.posInt u)) = true) ∧ o.Bounded (.json (.posInt u)) ∧
      ∀ values, o.oneOf = some values → .number (.posInt u) ∈ values := by
  rw [Passes, check_ok]
  simp only [listed_beyond _ hu, isNull, Bool.false_and, Bool.false_eq_true, false_or, numKey, Option.some.injEq,
    forall_eq', checkShape, and_true]
  rfl

theorem passes_decimal {u : UInt64} (hu : 2 ^ 63 ≤ u.toNat) : o.Passes (.doc (fromJson (.number (.posInt u)))) ↔
    (∀ ty, o.ty = some ty → ty.accepts (.number (.posInt u)) = true) ∧ o.Bounded (.json (.posInt u)) ∧
      ∀ values, o.oneOf = some values → .number (.posInt u) ∈ values ∨
        ∃ f : F64, .number (.float f) ∈ values ∧ f.value = u.toNat := by
  have hdoc : fromJson (.number (.posInt u)) = decimal (NumKey.ofU64 u) := fromNumber_beyond (by omega)
  rw [Passes, check_ok, isNull_fromJson, checkShape_fromJson, bounded_fromJson]
  simp only [accepts_fromJson]
  simp only [hdoc, listed_decimal _ hu, isNull, Bool.false_and, Bool.false_eq_true, false_or, numKey,
    Option.some.injEq, forall_eq', checkShape, and_true]

/-- Typed values follow the same rules as JSON, but for the confused ones. -/
theorem passes_fromJson (j : Json) : o.Passes (.doc (fromJson j)) ↔ o.Passes (.json j) ∨ o.Confused j := by
  by_cases hbig : ∃ u : UInt64, j = .number (.posInt u) ∧ 2 ^ 63 ≤ u.toNat
  · obtain ⟨u, rfl, hu⟩ := hbig
    rw [passes_decimal hu, passes_beyond hu]
    constructor
    · rintro ⟨hty, hbounded, hlisted⟩
      by_cases hin : ∀ values, o.oneOf = some values → Json.number (.posInt u) ∈ values
      · exact .inl ⟨hty, hbounded, hin⟩
      · simp only [not_forall] at hin
        obtain ⟨values, hvalues, hnot⟩ := hin
        exact .inr ⟨u, values, rfl, hu, hty, hbounded, hvalues, (hlisted values hvalues).resolve_left hnot, hnot⟩
    · rintro (⟨hty, hbounded, hin⟩ | ⟨v, values, heq, -, hty, hbounded, hvalues, hfloat, -⟩)
      · exact ⟨hty, hbounded, fun values hvalues => .inl (hin values hvalues)⟩
      · rw [Json.number.injEq, Number.posInt.injEq] at heq
        subst heq
        refine ⟨hty, hbounded, fun values' hvalues' => .inr ?_⟩
        rw [hvalues] at hvalues'
        rwa [← Option.some.inj hvalues']
  · have hnone : ¬ o.Confused j := by
      rintro ⟨u, values, rfl, hu, -⟩
      exact hbig ⟨u, rfl, hu⟩
    have hdec (d : Decimal) : fromJson j ≠ decimal d := by
      intro h
      cases j with
      | number n =>
          rw [fromJson] at h
          rcases fromNumber_kinds n with ⟨i, -, hd⟩ | ⟨u, rfl, hu, -, -⟩ | ⟨f, -, hd⟩
          · rw [hd] at h
            exact nomatch h
          · exact hbig ⟨u, rfl, hu⟩
          · rw [hd] at h
            exact nomatch h
      | _ => exact nomatch h
    rw [or_iff_left hnone, Passes, Passes, check_ok, check_ok, isNull_fromJson, checkShape_fromJson, bounded_fromJson]
    simp only [accepts_fromJson, listed_fromJson _ hdec]
    rfl

theorem not_confused {j : Json} (h : o.Passes (.json j)) : ¬ o.Confused j := by
  rintro ⟨u, values, rfl, hu, -, -, hvalues, -, hnot⟩
  exact hnot (((passes_beyond hu).mp h).2.2 values hvalues)

end Own

/-- JSON follows the rules where typed values do and none is confused. -/
theorem asks_json : Reading.json.asks = both Reading.typed.asks (everywhere fun o j => ¬ o.Confused j) := by
  unfold Reading.asks both everywhere
  congr 1
  · funext o j
    refine propext ?_
    show o.Passes (.json j) ↔ o.Passes (.doc (fromJson j)) ∧ _
    rw [Own.passes_fromJson]
    exact ⟨fun h => ⟨.inl h, Own.not_confused h⟩, fun h => h.1.resolve_right h.2⟩
  · funext o
    simp

end KivaDb.Rules
