import KivaDb.Schema.Parse
import KivaDb.Rounding

namespace KivaDb.Rules

/-- A number as it is written under a key. -/
def numberAt (m : Members Json) (k : String) : Option Number :=
  match m.lookup k with
  | some (.number n) => some n
  | _ => none

/-- A value within the bounds as they are written. -/
structure Within (m : Members Json) (q : ℚ) : Prop where
  min : ∀ a, numberAt m "min" = some a → (NumKey.json a).value ≤ q
  max : ∀ b, numberAt m "max" = some b → q ≤ (NumKey.json b).value

/-- A value within the floats nearest to the bounds. -/
structure WithinRead (m : Members Json) (q : ℚ) : Prop where
  min : ∀ a, numberAt m "min" = some a → a.asF64.value ≤ q
  max : ∀ b, numberAt m "max" = some b → q ≤ b.asF64.value

/-- A value that lies between no bound and the float nearest to it. -/
structure Apart (m : Members Json) (q : ℚ) : Prop where
  min : ∀ a, numberAt m "min" = some a →
    ¬ ((NumKey.json a).value ≤ q ∧ q < a.asF64.value) ∧ ¬ (a.asF64.value ≤ q ∧ q < (NumKey.json a).value)
  max : ∀ b, numberAt m "max" = some b →
    ¬ ((NumKey.json b).value < q ∧ q ≤ b.asF64.value) ∧ ¬ (b.asF64.value < q ∧ q ≤ (NumKey.json b).value)

/-- A value out of the bounds, and out of the floats nearest to them. -/
def Beyond (m : Members Json) (q : ℚ) : Prop := ¬ Within m q ∧ ¬ WithinRead m q

section

variable {m : Members Json} {q : ℚ}

theorem Apart.within_iff (h : Apart m q) : WithinRead m q ↔ Within m q := by
  constructor
  · intro hread
    constructor
    · intro a ha
      by_contra hlt
      exact (h.min a ha).2 ⟨hread.min a ha, not_le.mp hlt⟩
    · intro b hb
      by_contra hlt
      exact (h.max b hb).1 ⟨not_le.mp hlt, hread.max b hb⟩
  · intro hwithin
    constructor
    · intro a ha
      by_contra hlt
      exact (h.min a ha).1 ⟨hwithin.min a ha, not_le.mp hlt⟩
    · intro b hb
      by_contra hlt
      exact (h.max b hb).2 ⟨not_le.mp hlt, hwithin.max b hb⟩

theorem apart_of_within (hread : WithinRead m q) (hwithin : Within m q) : Apart m q := by
  constructor
  · intro a ha
    exact ⟨fun h => not_lt.mpr (hread.min a ha) h.2, fun h => not_lt.mpr (hwithin.min a ha) h.2⟩
  · intro b hb
    exact ⟨fun h => not_lt.mpr (hwithin.max b hb) h.1, fun h => not_lt.mpr (hread.max b hb) h.1⟩

theorem withinRead_iff : (WithinRead m q ↔ Within m q) ↔ Apart m q ∨ Beyond m q := by
  constructor
  · intro h
    by_cases hwithin : Within m q
    · exact .inl (apart_of_within (h.mpr hwithin) hwithin)
    · exact .inr ⟨hwithin, fun hread => hwithin (h.mp hread)⟩
  · rintro (h | ⟨hwithin, hread⟩)
    · exact h.within_iff
    · exact iff_of_false hread hwithin

end

section

variable {m : Members Json} {path : String}

theorem number_ok {k : String} {x : Option F64} (h : number m path k = .ok x) : x = (numberAt m k).map Number.asF64 := by
  unfold number at h
  unfold numberAt
  split at h
  · next hk =>
      rw [hk]
      exact (Except.ok.inj h).symm
  · next hk =>
      rw [hk]
      exact (Except.ok.inj h).symm
  · exact nomatch h

variable [Texts]

theorem parseOwn_bounds {o : Own} (h : parseOwn m path = .ok o) :
    o.min = (numberAt m "min").map Number.asF64 ∧ o.max = (numberAt m "max").map Number.asF64 := by
  unfold parseOwn at h
  obtain ⟨ty, -, h⟩ := seq_map.mp h
  obtain ⟨required, -, h⟩ := seq_map.mp h
  obtain ⟨nullable, -, h⟩ := seq_map.mp h
  obtain ⟨unique, -, h⟩ := seq_map.mp h
  obtain ⟨min, hmin, h⟩ := seq_map.mp h
  obtain ⟨max, hmax, h⟩ := seq_map.mp h
  obtain ⟨minLength, -, h⟩ := seq_map.mp h
  obtain ⟨maxLength, -, h⟩ := seq_map.mp h
  obtain ⟨minItems, -, h⟩ := seq_map.mp h
  obtain ⟨maxItems, -, h⟩ := seq_map.mp h
  rw [← Except.ok.inj h]
  exact ⟨number_ok hmin, number_ok hmax⟩

variable [Chrono]

theorem checkBounds_within {o : Own} {v : Leaf} {k : NumKey} (hk : numKey v = some k)
    (hmin : o.min = (numberAt m "min").map Number.asF64) (hmax : o.max = (numberAt m "max").map Number.asF64) :
    o.checkBounds v path = .ok () ↔ WithinRead m k.value := by
  have hcmp (f : F64) : k.cmpJson (.float f) = compare k.value f.value := by
    rw [NumKey.cmpJson_eq, NumKey.cmp_eq]
    rfl
  rw [Own.checkBounds_ok]
  constructor
  · intro h
    have hb := h k hk
    constructor
    · intro a ha
      have hlt := hb.min a.asF64 (by rw [hmin, ha, Option.map_some])
      rw [hcmp] at hlt
      exact not_lt.mp (compare_lt_iff_lt.not.mp hlt)
    · intro b hb'
      have hgt := hb.max b.asF64 (by rw [hmax, hb', Option.map_some])
      rw [hcmp] at hgt
      exact not_lt.mp (compare_gt_iff_gt.not.mp hgt)
  · intro h k' hk'
    obtain rfl := Option.some.inj (hk.symm.trans hk')
    constructor
    · intro f hf
      rw [hmin] at hf
      obtain ⟨a, ha, rfl⟩ := Option.map_eq_some_iff.mp hf
      rw [hcmp]
      exact compare_lt_iff_lt.not.mpr (not_lt.mpr (h.min a ha))
    · intro f hf
      rw [hmax] at hf
      obtain ⟨b, hb, rfl⟩ := Option.map_eq_some_iff.mp hf
      rw [hcmp]
      exact compare_gt_iff_gt.not.mpr (not_lt.mpr (h.max b hb))

variable [Zones]

/-- A number is checked for its type, its bounds and the list of its rule. -/
theorem checkValue_number {r : Rule} {v : Leaf} {k : NumKey} (hk : numKey v = some k) (at_ : String) :
    checkValue r v at_ = (do r.own.checkType v at_; r.own.checkBounds v at_; r.own.checkOneOf v at_) := by
  obtain ⟨own, properties, each⟩ := r
  have hnull : isNull v = false ∧ own.checkShape v at_ = .ok () ∧ elements v = [] ∧ members v = none := by
    unfold numKey at hk
    split at hk
    · exact ⟨rfl, rfl, rfl, rfl⟩
    · exact ⟨rfl, rfl, rfl, rfl⟩
    · exact ⟨rfl, rfl, rfl, rfl⟩
    · exact ⟨rfl, rfl, rfl, rfl⟩
    · exact nomatch hk
  obtain ⟨hnull, hshape, helements, hmembers⟩ := hnull
  have hinner : checkInner each v at_ = .ok () := by
    cases each with
    | none => rw [checkInner]
    | some each => rw [checkInner, helements, checkEach]
  have hproperties : checkProperties properties v at_ = .ok () := by
    cases properties with
    | none => rw [checkProperties]
    | some fields => simp only [checkProperties, hmembers]
  rw [checkValue, hinner, hproperties, Own.check, hnull, hshape, Rule.own]
  rcases own.checkType v at_ with e | u
  · rfl
  · rcases own.checkBounds v at_ with e | u
    · rfl
    · rcases own.checkOneOf v at_ with e | u <;> rfl

/-- A written minimum above the written maximum. -/
def Crossed (m : Members Json) : Prop :=
  ∃ a b, numberAt m "min" = some a ∧ numberAt m "max" = some b ∧ (NumKey.json b).value < (NumKey.json a).value

/-- A written minimum above the written maximum, where the nearest float is the same. -/
def CrossedAlike (m : Members Json) : Prop :=
  ∃ a b, numberAt m "min" = some a ∧ numberAt m "max" = some b ∧ (NumKey.json b).value < (NumKey.json a).value ∧
    a.asF64.value = b.asF64.value

omit [Chrono] [Zones] in
theorem checkRange_ok {o : Own} (hmin : o.min = (numberAt m "min").map Number.asF64)
    (hmax : o.max = (numberAt m "max").map Number.asF64) : checkRange path o = .ok () ↔
      ∀ a b, numberAt m "min" = some a → numberAt m "max" = some b → a.asF64.value ≤ b.asF64.value := by
  unfold checkRange
  rw [hmin, hmax]
  rcases numberAt m "min" with _ | a <;> rcases numberAt m "max" with _ | b
  · simp
  · simp
  · simp
  · simp only [Option.map_some, F64.above_iff]
    split
    · next hlt => exact iff_of_false (fun h => nomatch h) fun h => not_lt.mpr (h a b rfl rfl) hlt
    · next hlt =>
        refine iff_of_true rfl fun a' b' ha hb => ?_
        rw [← Option.some.inj ha, ← Option.some.inj hb]
        exact not_lt.mp hlt

omit [Chrono] [Zones] in
theorem checkRange_crossed {o : Own} (hmin : o.min = (numberAt m "min").map Number.asF64)
    (hmax : o.max = (numberAt m "max").map Number.asF64) :
    (checkRange path o = .ok () ↔ ¬ Crossed m) ↔ ¬ CrossedAlike m := by
  rw [checkRange_ok hmin hmax]
  constructor
  · rintro h ⟨a, b, ha, hb, hlt, heq⟩
    refine h.mp (fun a' b' ha' hb' => ?_) ⟨a, b, ha, hb, hlt⟩
    obtain rfl := Option.some.inj (ha.symm.trans ha')
    obtain rfl := Option.some.inj (hb.symm.trans hb')
    exact heq.le
  · intro h
    constructor
    · rintro hread ⟨a, b, ha, hb, hlt⟩
      exact h ⟨a, b, ha, hb, hlt, le_antisymm (hread a b ha hb) (Number.asF64_mono hlt.le)⟩
    · intro hcrossed a b ha hb
      apply Number.asF64_mono
      by_contra hlt
      exact hcrossed ⟨a, b, ha, hb, not_le.mp hlt⟩

variable [Patterns] {depth : Nat} {inItems : Bool}

theorem parseRule_own {r : Rule} (h : parseRule (.object m) path depth inItems = .ok r) :
    ∃ own fill, parseOwnWhole m path inItems = .ok own ∧ r.own = { own with fill := fill } := by
  rw [parseRule_object] at h
  obtain ⟨own, hown, h⟩ := seq_map.mp h
  obtain ⟨properties, -, h⟩ := seq_map.mp h
  obtain ⟨items, -, h⟩ := seq_map.mp h
  obtain ⟨fill, -, h⟩ := seq_map.mp h
  refine ⟨own, fill, hown, ?_⟩
  rw [← Except.ok.inj h]
  rfl

theorem parseRule_bounds {r : Rule} (h : parseRule (.object m) path depth inItems = .ok r) :
    r.own.min = (numberAt m "min").map Number.asF64 ∧ r.own.max = (numberAt m "max").map Number.asF64 := by
  obtain ⟨own, fill, hown, hr⟩ := parseRule_own h
  obtain ⟨o, oneOf, pattern, -, ho, -, -, -, -, -, -, rfl⟩ := parseOwnWhole_ok.mp hown
  have hbounds := parseOwn_bounds ho
  rw [hr]
  exact hbounds

theorem parseRule_range {o : Own} {e : String} (hkeys : checkKeys m path = .ok ()) (ho : parseOwn m path = .ok o)
    (happlies : checkApplies m path o.ty = .ok ()) (he : checkRange path o = .error e) :
    parseRule (.object m) path depth inItems = .error e := by
  have hwhole : parseOwnWhole m path inItems = .error e := by
    unfold parseOwnWhole
    rw [hkeys, ho]
    show (do checkApplies m path o.ty; checkRange path o; _) = _
    rw [happlies, he]
    rfl
  rw [parseRule_object, hwhole]
  rfl

theorem parseRule_ranged {o : Own} {r : Rule} (ho : parseOwn m path = .ok o)
    (h : parseRule (.object m) path depth inItems = .ok r) : checkRange path o = .ok () := by
  obtain ⟨own, fill, hown, -⟩ := parseRule_own h
  obtain ⟨o', oneOf, pattern, -, ho', -, hrange, -⟩ := parseOwnWhole_ok.mp hown
  rwa [Except.ok.inj (ho.symm.trans ho')]

/-- The bounds of a rule that is read are those written, but for the values that lie between a bound
and the float nearest to it, and for a minimum above a maximum that is read as the same float. -/
theorem bounds_exact (m : Members Json) (path : String) (depth : Nat) (inItems : Bool) :
    (∀ r, parseRule (.object m) path depth inItems = .ok r → ∀ v k at_, numKey v = some k →
      checkValue r v at_ = (do r.own.checkType v at_; r.own.checkBounds v at_; r.own.checkOneOf v at_) ∧
      ((r.own.checkBounds v at_ = .ok () ↔ Within m k.value) ↔ Apart m k.value ∨ Beyond m k.value)) ∧
    (∀ o, checkKeys m path = .ok () → parseOwn m path = .ok o → checkApplies m path o.ty = .ok () →
      (∀ e, checkRange path o = .error e → parseRule (.object m) path depth inItems = .error e) ∧
      (∀ r, parseRule (.object m) path depth inItems = .ok r → checkRange path o = .ok ()) ∧
      ((checkRange path o = .ok () ↔ ¬ Crossed m) ↔ ¬ CrossedAlike m)) := by
  constructor
  · intro r hr v k at_ hk
    obtain ⟨hmin, hmax⟩ := parseRule_bounds hr
    rw [checkBounds_within hk hmin hmax]
    exact ⟨checkValue_number hk at_, withinRead_iff⟩
  · intro o hkeys ho happlies
    obtain ⟨hmin, hmax⟩ := parseOwn_bounds ho
    exact ⟨fun e he => parseRule_range hkeys ho happlies he, fun r hr => parseRule_ranged ho hr,
      checkRange_crossed hmin hmax⟩

end

section Samples

attribute [local instance] seconds oneZone plainTexts noPatterns

/-- `{"type": "integer", "min": 9007199254740993, "max": 9007199254740992}`. -/
def crossedRule : Members Json :=
  [("type", .string "integer"), ("min", .number (.posInt 9007199254740993)), ("max", .number (.posInt 9007199254740992))]

def crossedOwn : Own :=
  ⟨some .integer, false, false, false, some (Number.posInt 9007199254740993).asF64, some (Number.posInt 9007199254740992).asF64,
    none, none, none, none, none, none, none⟩

theorem asF64_crossed : (Number.posInt 9007199254740993).asF64 = (Number.posInt 9007199254740992).asF64 := by
  decide +kernel

theorem crossedRule_range : checkRange "n" crossedOwn = .ok () := by
  refine (checkRange_ok (m := crossedRule) rfl rfl).mpr fun a b ha hb => ?_
  obtain rfl := Option.some.inj (show some _ = some a from ha)
  obtain rfl := Option.some.inj (show some _ = some b from hb)
  rw [asF64_crossed]

theorem crossedRule_own : checkKeys crossedRule "n" = .ok () ∧ parseOwn crossedRule "n" = .ok crossedOwn ∧
    checkApplies crossedRule "n" crossedOwn.ty = .ok () :=
  ⟨rfl, rfl, rfl⟩

theorem crossedRule_read : parseRule (.object crossedRule) "n" 0 false = .ok (.mk crossedOwn none none) := by
  obtain ⟨hkeys, hown, happlies⟩ := crossedRule_own
  have hwhole : parseOwnWhole crossedRule "n" false = .ok crossedOwn :=
    parseOwnWhole_ok.mpr ⟨crossedOwn, none, none, hkeys, hown, happlies, crossedRule_range, rfl, rfl, rfl, rfl, rfl⟩
  rw [parseRule_object, hwhole]
  rfl

theorem crossedRule_value : ¬ Within crossedRule (NumKey.json (.posInt 9007199254740992)).value ∧ Crossed crossedRule := by
  have hmin : numberAt crossedRule "min" = some (.posInt 9007199254740993) := rfl
  have hmax : numberAt crossedRule "max" = some (.posInt 9007199254740992) := rfl
  have hlt : (NumKey.json (.posInt 9007199254740992)).value < (NumKey.json (.posInt 9007199254740993)).value := by
    have hnat : (9007199254740992 : UInt64).toNat < (9007199254740993 : UInt64).toNat := by decide
    rw [NumKey.value, NumKey.value]
    exact_mod_cast hnat
  exact ⟨fun h => not_lt.mpr (h.min _ hmin) hlt, _, _, hmin, hmax, hlt⟩

/-- `9007199254740992` passes a minimum of `9007199254740993`, which may also stand above a maximum of `9007199254740992`. -/
theorem crossedRule_accepted :
    parseRule (.object crossedRule) "n" 0 false = .ok (.mk crossedOwn none none) ∧ Crossed crossedRule ∧
      crossedOwn.checkBounds (.json (.number (.posInt 9007199254740992))) "n" = .ok () ∧
      ¬ Within crossedRule (NumKey.json (.posInt 9007199254740992)).value := by
  obtain ⟨hbelow, hcrossed⟩ := crossedRule_value
  refine ⟨crossedRule_read, hcrossed, ?_, hbelow⟩
  have hexact : (Number.posInt 9007199254740992).asF64.value = (NumKey.json (.posInt 9007199254740992)).value := by
    have hunits : (Number.posInt 9007199254740992).asF64.units = (Number.posInt 9007199254740992).units := by decide +kernel
    rw [F64.value_units, Number.value_units, hunits]
  refine (checkBounds_within (m := crossedRule) rfl rfl rfl).mpr ⟨fun a ha => ?_, fun b hb => ?_⟩
  · obtain rfl := Option.some.inj (show some _ = some a from ha)
    rw [asF64_crossed, hexact]
  · obtain rfl := Option.some.inj (show some _ = some b from hb)
    rw [hexact]

theorem bounds_exact_crossed :
    ((crossedOwn.checkBounds (.json (.number (.posInt 9007199254740992))) "n" = .ok () ↔
      Within crossedRule (NumKey.json (.posInt 9007199254740992)).value) ↔
        Apart crossedRule (NumKey.json (.posInt 9007199254740992)).value ∨
          Beyond crossedRule (NumKey.json (.posInt 9007199254740992)).value) ∧
      ((checkRange "n" crossedOwn = .ok () ↔ ¬ Crossed crossedRule) ↔ ¬ CrossedAlike crossedRule) := by
  obtain ⟨hkeys, hown, happlies⟩ := crossedRule_own
  exact ⟨((bounds_exact crossedRule "n" 0 false).1 _ crossedRule_read _ _ "n" rfl).2,
    ((bounds_exact crossedRule "n" 0 false).2 crossedOwn hkeys hown happlies).2.2⟩

end Samples

end KivaDb.Rules
