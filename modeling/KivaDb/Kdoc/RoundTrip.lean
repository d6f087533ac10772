import KivaDb.Kdoc.Encoding

namespace KivaDb

open Lib.LittleEndian Lib.Calendar Lib.Utf8 Lib.Reading

namespace F64

theorem ofBits_toBits (f : F64) : ofBits f.toBits = some f := by
  have he := f.exponent.isLt
  have hf := f.fraction.isLt
  have hexp : f.toBits / 2 ^ 52 % 2048 = f.exponent.val := by
    unfold toBits
    split <;> omega
  have hneg : decide (f.toBits / 2 ^ 63 % 2 = 1) = f.negative := by
    unfold toBits
    cases hn : f.negative with
    | true =>
        refine decide_eq_true ?_
        simp only [if_true]
        omega
    | false =>
        refine decide_eq_false ?_
        simp only [Bool.false_eq_true, if_false]
        omega
  have hfrac : f.toBits % 2 ^ 52 = f.fraction.val := by
    unfold toBits
    split <;> omega
  rw [ofBits, dif_pos (by omega)]
  simp only [hneg, hexp, hfrac]

theorem toBits_lt (f : F64) : f.toBits < 256 ^ 8 := by
  have he := f.exponent.isLt
  have hf := f.fraction.isLt
  unfold toBits
  split <;> omega

end F64

namespace Decimal

theorem flags_fields (scale : Fin 29) (negative : Bool) :
    let flags := UInt32.ofNat (scale * 2 ^ 16 + if negative then 2 ^ 31 else 0)
    flags &&& ~~~0x801F0000 = 0 ∧ (flags >>> 16 &&& 0xFF).toNat = scale ∧ (flags >>> 31 = 1 ↔ negative) := by
  revert scale negative
  decide

theorem flags_eq (d : Decimal) :
    d.flags &&& ~~~0x801F0000 = 0 ∧ (d.flags >>> 16 &&& 0xFF).toNat = d.scale ∧
      (d.flags >>> 31 = 1 ↔ d.mantissa < 0) := by
  have h := flags_fields ⟨d.scale, Nat.lt_succ_of_le d.scale_le⟩ (decide (d.mantissa < 0))
  simpa [flags] using h

theorem length_serialize (d : Decimal) : d.serialize.length = 16 := by simp [serialize]

theorem u32At_serialize (d : Decimal) : u32At d.serialize 0 = d.flags := u32At_le32_append _ _

theorem deserialize_serialize (d : Decimal) : deserialize d.serialize = d := by
  obtain ⟨-, hscale, hsign⟩ := d.flags_eq
  have hm : ofLE (slice d.serialize 4 12) % 2 ^ 96 = d.mantissa.natAbs := by
    have hslice : slice d.serialize 4 12 = toLE 12 d.mantissa.natAbs :=
      slice_eq_of_append (p := le32 d.flags) (r := []) (by simp [serialize]) (by simp) (by simp)
    rw [hslice, ofLE_toLE]
    have := d.mantissa_lt
    omega
  have hle := d.scale_le
  obtain ⟨m, s, hlt, hsle⟩ := d
  simp only [deserialize, u32At_serialize, hm, hscale, mk.injEq]
  refine ⟨?_, Nat.min_eq_left hle⟩
  split
  · next h =>
      have := hsign.mp h
      simp only at this ⊢
      omega
  · next h =>
      have := mt hsign.mpr h
      simp only at this ⊢
      omega

end Decimal

namespace Kdoc

/-- Every bit of the shifted number is its sign. -/
theorem sign_bits (x : BitVec 64) : x.sshiftRight 63 = if x.msb then -1#64 else 0#64 := by
  ext j hj
  rw [BitVec.getElem_sshiftRight]
  have hone : (-1#64)[j] = true := by
    rw [show -1#64 = BitVec.allOnes 64 by decide, BitVec.getElem_allOnes]
  have hlast (h : 63 + j < 64) : x[63 + j] = x.msb := by
    obtain rfl : j = 0 := by omega
    rw [BitVec.msb_eq_getLsbD_last]
    rfl
  cases hm : x.msb with
  | true =>
      simp only [if_true, hone]
      split
      · next h => rw [hlast h, hm]
      · rfl
  | false =>
      simp only [Bool.false_eq_true, if_false, BitVec.getElem_zero]
      split
      · next h => rw [hlast h, hm]
      · rfl

theorem zigzag_bits (x : BitVec 64) :
    (((x <<< 1) ^^^ x.sshiftRight 63) >>> 1) ^^^ -(((x <<< 1) ^^^ x.sshiftRight 63) &&& 1#64) = x := by
  rw [sign_bits]
  have hmsb : x[63] = x.msb := by
    rw [BitVec.msb_eq_getLsbD_last]
    rfl
  cases hm : x.msb with
  | true =>
      have hone : ((x <<< 1) ^^^ -1#64) &&& 1#64 = 1#64 := by
        ext j hj
        by_cases h0 : j = 0
        · subst h0
          simp
        · simp [h0]
      simp only [if_true, hone]
      ext j hj
      rw [show -1#64 = BitVec.allOnes 64 by decide]
      simp only [BitVec.getElem_xor, BitVec.getElem_ushiftRight, BitVec.getLsbD_xor, BitVec.getLsbD_shiftLeft,
        BitVec.getElem_allOnes, BitVec.getLsbD_allOnes]
      by_cases hj' : 1 + j < 64
      · simp [hj', ← BitVec.getLsbD_eq_getElem]
      · obtain rfl : j = 63 := by omega
        simp [hmsb, hm]
  | false =>
      have hzero : ((x <<< 1) ^^^ 0#64) &&& 1#64 = 0#64 := by
        ext j hj
        by_cases h0 : j = 0
        · subst h0
          simp
        · simp [h0]
      simp only [Bool.false_eq_true, if_false, hzero]
      ext j hj
      simp only [BitVec.getElem_xor, BitVec.getElem_ushiftRight, BitVec.getLsbD_xor, BitVec.getLsbD_shiftLeft,
        BitVec.getElem_zero, BitVec.getLsbD_zero, BitVec.neg_zero]
      by_cases hj' : 1 + j < 64
      · simp [hj', ← BitVec.getLsbD_eq_getElem]
      · obtain rfl : j = 63 := by omega
        simp [hmsb, hm]

theorem unzigzag_zigzag (i : Int64) : unzigzag (zigzag i) = i := by
  apply Int64.toBitVec.inj
  rw [unzigzag, zigzag]
  simpa using zigzag_bits i.toBitVec

theorem days_bounds {d : Date} (h : inRange d = true) : -2 ^ 31 ≤ d.days ∧ d.days < 2 ^ 31 := by
  simp only [inRange, Bool.and_eq_true, decide_eq_true_eq] at h
  have hlo := d.year_le_days
  have hhi := d.days_lt_year
  unfold daysToYear at hlo hhi
  omega

theorem days_back {d : Date} (h : inRange d = true) :
    Date.epoch.addDays (Int32.ofInt d.days).toUInt32.toInt32.toInt = d := by
  obtain ⟨hlo, hhi⟩ := days_bounds h
  have hsame : (Int32.ofInt d.days).toUInt32.toInt32 = Int32.ofInt d.days := by simp
  rw [hsame, Int32.toInt_ofInt_of_le hlo hhi, Date.epoch_addDays]

theorem reads_whole {α : Type} {r : R α} {xs : Bytes} {k : Nat} {a : α} (h : Reads r (xs ++ []) k a) :
    Reads r xs k a := by
  rwa [List.append_nil] at h

theorem reads_text {s : String} (h : (asBytes s).length < 2 ^ 64) : Reads text (putText s) 0 s := by
  refine (reads_count h).bind ?_ (Nat.le_add_right _ _)
  refine reads_whole ((Reads.take (asBytes s)).bind ?_ (Nat.zero_le _))
  rw [fromUtf8_asBytes]
  exact .pure s

section

variable [Chrono] [Clocks]

mutual

/-- What the types of the program promise of a document: lengths that a machine
can count, dates that `chrono` has, each member of an object once. -/
def held : Doc → Bool
  | .str s => (asBytes s).length < 2 ^ 64
  | .date d => inRange d
  | .array items => items.length < 2 ^ 64 && heldItems items
  | .object m => m.length < 2 ^ 64 && decide (m.map Prod.fst).Nodup && heldMembers m
  | _ => true

def heldItems : List Doc → Bool
  | [] => true
  | d :: ds => held d && heldItems ds

def heldMembers : List (String × Doc) → Bool
  | [] => true
  | (k, d) :: ds => (asBytes k).length < 2 ^ 64 && (held d && heldMembers ds)

end

theorem reads_leaf {levels : Nat} {t : UInt8} {xs : Bytes} {k : Nat} {d : Doc}
    (h : Reads (payload (value levels) t) xs k d) : Reads (value (levels + 1)) (t :: xs) k d :=
  (Reads.byte t).bind h (Nat.zero_le _)

theorem reads_int (v : R Doc) (i : Int64) : Reads (payload v tInt) (putVarint 9 (zigzag i).toNat) 0 (.int i) := by
  have h := (reads_varint (zigzag i).toNat_lt).map fun n => Doc.int (unzigzag (UInt64.ofNat n))
  rwa [UInt64.ofNat_toNat, unzigzag_zigzag] at h

theorem reads_array_bind {v : R Doc} {t : UInt8} {xs : Bytes} {n : Nat} {d : Doc} {f : Bytes → R Doc}
    (heq : payload v t = array n >>= f) (hn : xs.length = n) (hf : Reads (f xs) [] 0 d) :
    Reads (payload v t) xs 0 d := by
  have h : Reads (array xs.length >>= f) (xs ++ []) 0 d := (Reads.array xs).bind hf (Nat.zero_le _)
  rw [List.append_nil, hn] at h
  rwa [heq]

theorem reads_float (v : R Doc) (f : F64) : Reads (payload v tFloat) (toLE 8 f.toBits) 0 (.float f) := by
  refine reads_array_bind rfl (length_toLE 8 _) ?_
  rw [ofLE_toLE, Nat.mod_eq_of_lt f.toBits_lt, F64.ofBits_toBits]
  exact .pure _

theorem reads_decimal (v : R Doc) (d : Decimal) : Reads (payload v tDecimal) d.serialize 0 (.decimal d) := by
  refine reads_array_bind rfl d.length_serialize ?_
  obtain ⟨hflags, hscale, -⟩ := d.flags_eq
  have hle := d.scale_le
  dsimp only
  rw [d.u32At_serialize, hscale, if_neg, Decimal.deserialize_serialize]
  · exact .pure _
  · rintro (h | h)
    · exact h hflags
    · exact absurd h (Nat.not_lt.mpr hle)

theorem reads_date (v : R Doc) {d : Date} (h : inRange d = true) :
    Reads (payload v tDate) (le32 (Int32.ofInt d.days).toUInt32) 0 (.date d) := by
  refine reads_array_bind rfl (length_le32 _) ?_
  have hu := u32At_le32_append (Int32.ofInt d.days).toUInt32 []
  rw [List.append_nil] at hu
  dsimp only
  rw [hu, days_back h, if_pos h]
  exact .pure _

theorem reads_dateTime (v : R Doc) {t : Chrono.DateTime} (h : wholeMs (Clocks.nanosecond t) = true) :
    Reads (payload v tDateTime) (leI64 (Clocks.timestampMillis t)) 0 (.dateTime t) := by
  refine reads_array_bind rfl (length_leI64 _) ?_
  simp only [wholeMs, Bool.and_eq_true, decide_eq_true_eq] at h
  have hi : i64At (leI64 (Clocks.timestampMillis t)) 0 = Clocks.timestampMillis t :=
    i64At_of_append (p := []) (r := []) (by simp) rfl
  rw [hi, Clocks.millis_back t (Nat.dvd_of_mod_eq_zero h.1) h.2]
  exact .pure _

theorem reads_time (v : R Doc) {t : Chrono.NaiveTime} (h : wholeMs (Clocks.timeNanosecond t) = true) :
    Reads (payload v tTime)
      (le32 (UInt32.ofNat (Clocks.numSecondsFromMidnight t * 1000 + Clocks.timeNanosecond t / 1000000))) 0 (.time t) := by
  refine reads_array_bind rfl (length_le32 _) ?_
  simp only [wholeMs, Bool.and_eq_true, decide_eq_true_eq] at h
  have hsecs := Clocks.time_secs t
  generalize hms : Clocks.numSecondsFromMidnight t * 1000 + Clocks.timeNanosecond t / 1000000 = ms
  have hu := u32At_le32_append (UInt32.ofNat ms) []
  rw [List.append_nil] at hu
  have hnat : (UInt32.ofNat ms).toNat = ms := UInt32.toNat_ofNat_of_lt (by simp only [UInt32.size]; omega)
  have hday : ms < 86400000 := by omega
  have hs : ms / 1000 = Clocks.numSecondsFromMidnight t := by omega
  have hn : ms % 1000 * 1000000 = Clocks.timeNanosecond t := by
    have hdiv : Clocks.timeNanosecond t / 1000000 < 1000 := Nat.div_lt_of_lt_mul h.2
    have hmod : ms % 1000 = Clocks.timeNanosecond t / 1000000 := by omega
    rw [hmod]
    exact Nat.div_mul_cancel (Nat.dvd_of_mod_eq_zero h.1)
  dsimp only
  rw [hu, hnat, hs, hn, Clocks.time_back t h.2, Option.filter, if_pos (decide_eq_true hday)]
  exact .pure _

theorem length_encodeItems (ds : List Doc) : ds.length ≤ (encodeItems ds).length := by
  induction ds with
  | nil => exact Nat.le_refl 0
  | cons d ds ih =>
      have hd : 1 ≤ (encodeValue d).length := by
        cases d with
        | bool b => cases b <;> simp [encodeValue]
        | _ => simp [encodeValue]
      rw [encodeItems, List.length_append, List.length_cons]
      omega

theorem length_encodeMembers (ds : List (String × Doc)) : ds.length ≤ (encodeMembers ds).length := by
  induction ds with
  | nil => exact Nat.le_refl 0
  | cons d ds ih =>
      have hd : 1 ≤ (encodeValue d.2).length := by
        cases d.2 with
        | bool b => cases b <;> simp [encodeValue]
        | _ => simp [encodeValue]
      rw [encodeMembers, List.length_append, List.length_append, List.length_cons]
      omega

theorem checkItems_cons {d : Doc} {ds : List Doc} {depth : Nat} (h : checkItems (d :: ds) depth = .ok ()) :
    checkAt d depth = .ok () ∧ checkItems ds depth = .ok () := by
  rw [checkItems] at h
  obtain ⟨_, hd, hds⟩ := Lib.Fallible.except_bind_ok.mp h
  exact ⟨hd, hds⟩

theorem checkMembers_cons {k : String} {d : Doc} {ds : List (String × Doc)} {depth : Nat}
    (h : checkMembers ((k, d) :: ds) depth = .ok ()) : checkAt d depth = .ok () ∧ checkMembers ds depth = .ok () := by
  rw [checkMembers] at h
  obtain ⟨_, hd, hds⟩ := Lib.Fallible.except_bind_ok.mp h
  exact ⟨hd, hds⟩

theorem depth_of_check {d : Doc} {depth : Nat} (h : checkAt d depth = .ok ()) : ¬ maxDepth < depth := by
  intro hdeep
  cases d <;> simp [checkAt, hdeep] at h

mutual

/-- What was checked is read back as it was. -/
theorem reads_value (d : Doc) {levels depth : Nat} (hlevels : depth + levels = maxDepth + 1)
    (hcheck : checkAt d depth = .ok ()) (hheld : held d = true) : Reads (value levels) (encodeValue d) 0 d := by
  have hdepth := depth_of_check hcheck
  obtain ⟨levels, rfl⟩ : ∃ l, levels = l + 1 := ⟨levels - 1, by omega⟩
  match d with
  | .null => exact reads_leaf (.pure _)
  | .bool false => exact reads_leaf (.pure _)
  | .bool true => exact reads_leaf (.pure _)
  | .int i => exact reads_leaf (reads_int _ i)
  | .float f => exact reads_leaf (reads_float _ f)
  | .decimal d => exact reads_leaf (reads_decimal _ d)
  | .str s => exact reads_leaf ((reads_text (of_decide_eq_true hheld)).map Doc.str)
  | .date d => exact reads_leaf (reads_date _ hheld)
  | .dateTime t =>
      rw [checkAt, if_neg hdepth] at hcheck
      refine reads_leaf (reads_dateTime _ ?_)
      by_contra hms
      rw [if_neg hms] at hcheck
      exact nomatch hcheck
  | .time t =>
      rw [checkAt, if_neg hdepth] at hcheck
      refine reads_leaf (reads_time _ ?_)
      by_contra hms
      rw [if_neg hms] at hcheck
      exact nomatch hcheck
  | .array ds =>
      rw [checkAt, if_neg hdepth] at hcheck
      obtain ⟨hlen, hds⟩ := (Bool.and_eq_true _ _).mp hheld
      refine reads_leaf ((reads_count (of_decide_eq_true hlen)).bind ((reads_items ds (by omega) hcheck hds).map Doc.array) ?_)
      exact length_encodeItems ds
  | .object m =>
      rw [checkAt, if_neg hdepth] at hcheck
      obtain ⟨hlen, hds⟩ := (Bool.and_eq_true _ _).mp hheld
      obtain ⟨hlen, hnodup⟩ := (Bool.and_eq_true _ _).mp hlen
      refine reads_leaf ((reads_count (of_decide_eq_true hlen)).bind
        ((reads_members m [] (by omega) hcheck hds (of_decide_eq_true hnodup)).map Doc.object) ?_)
      exact length_encodeMembers m

theorem reads_items (ds : List Doc) {levels depth : Nat} (hlevels : depth + levels = maxDepth + 1)
    (hcheck : checkItems ds depth = .ok ()) (hheld : heldItems ds = true) :
    Reads (items (value levels) ds.length) (encodeItems ds) 0 ds := by
  match ds with
  | [] => exact .pure []
  | d :: ds =>
      obtain ⟨hd, hds⟩ := checkItems_cons hcheck
      obtain ⟨hheld, hhelds⟩ := (Bool.and_eq_true _ _).mp hheld
      exact (reads_value d hlevels hd hheld).bind ((reads_items ds hlevels hds hhelds).map (d :: ·)) (Nat.zero_le _)

theorem reads_members (ds m : List (String × Doc)) {levels depth : Nat} (hlevels : depth + levels = maxDepth + 1)
    (hcheck : checkMembers ds depth = .ok ()) (hheld : heldMembers ds = true) (hnodup : ((m ++ ds).map Prod.fst).Nodup) :
    Reads (members (value levels) ds.length m) (encodeMembers ds) 0 (m ++ ds) := by
  match ds with
  | [] =>
      rw [List.append_nil]
      exact .pure m
  | (k, d) :: ds =>
      obtain ⟨hd, hds⟩ := checkMembers_cons hcheck
      obtain ⟨hk, hheld⟩ := (Bool.and_eq_true _ _).mp hheld
      obtain ⟨hheld, hhelds⟩ := (Bool.and_eq_true _ _).mp hheld
      refine (reads_text (of_decide_eq_true hk)).bind ((reads_value d hlevels hd hheld).bind ?_ (Nat.zero_le _))
        (Nat.zero_le _)
      have hnew : ¬ (m.any fun p => decide (p.1 = k)) = true := by
        intro hany
        obtain ⟨p, hp, hpk⟩ := List.any_eq_true.mp hany
        rw [List.map_append, List.nodup_append] at hnodup
        exact hnodup.2.2 p.1 (List.mem_map_of_mem hp) k (by simp) (of_decide_eq_true hpk)
      have hrest := reads_members ds (m ++ [(k, d)]) hlevels hds hhelds (by rwa [← List.append_cons])
      rw [if_neg hnew]
      rwa [← List.append_cons] at hrest

end

theorem checkItems_iff {ds : List Doc} {depth : Nat} :
    checkItems ds depth = .ok () ↔ ∀ d ∈ ds, checkAt d depth = .ok () := by
  induction ds with
  | nil => simp [checkItems]
  | cons d ds ih =>
      rw [List.forall_mem_cons, ← ih]
      refine ⟨checkItems_cons, fun ⟨hd, hds⟩ => ?_⟩
      rw [checkItems, hd]
      exact hds

theorem checkMembers_iff {ds : List (String × Doc)} {depth : Nat} :
    checkMembers ds depth = .ok () ↔ ∀ p ∈ ds, checkAt p.2 depth = .ok () := by
  induction ds with
  | nil => simp [checkMembers]
  | cons p ds ih =>
      rw [List.forall_mem_cons, ← ih]
      refine ⟨checkMembers_cons, fun ⟨hd, hds⟩ => ?_⟩
      rw [checkMembers, hd]
      exact hds

omit [Chrono] [Clocks] in
theorem safe_text : Safe (fun _ => True) text := by
  refine .bind .count fun n _ => .bind (.take n) fun bytes _ => ?_
  split
  · exact .pure trivial
  · exact .bad _

theorem safe_members {v : R Doc} {depth : Nat} (hv : Safe (fun d => checkAt d depth = .ok ()) v) (n : Nat)
    {m : List (String × Doc)} (hm : ∀ p ∈ m, checkAt p.2 depth = .ok ()) :
    Safe (fun m => ∀ p ∈ m, checkAt p.2 depth = .ok ()) (members v n m) := by
  induction n generalizing m with
  | zero => exact .pure hm
  | succ n ih =>
      refine .bind safe_text fun k _ => .bind hv fun d hd => ?_
      split
      · exact .bad _
      · refine ih fun p hp => ?_
        obtain hp | hp := List.mem_append.mp hp
        · exact hm p hp
        · obtain rfl := List.mem_singleton.mp hp
          exact hd

theorem safe_payload {v : R Doc} {depth : Nat} (hdepth : ¬ maxDepth < depth)
    (hv : Safe (fun d => checkAt d (depth + 1) = .ok ()) v) (t : UInt8) :
    Safe (fun d => checkAt d depth = .ok ()) (payload v t) := by
  have leaf {d : Doc} (hd : checkAt d depth = if maxDepth < depth then .error tooDeep else .ok ()) :
      Safe (fun d => checkAt d depth = .ok ()) (pure d) := .pure (by rw [hd, if_neg hdepth])
  unfold payload
  apply Safe.ite (leaf rfl)
  apply Safe.ite (leaf rfl)
  apply Safe.ite (leaf rfl)
  apply Safe.ite (.bind (.varintLoop 10 0) fun n _ => leaf rfl)
  apply Safe.ite
  · refine .bind (.array 8) fun raw _ => ?_
    split
    · exact leaf rfl
    · exact .bad _
  apply Safe.ite (.bind (.array 16) fun raw _ => .ite (.bad _) (leaf rfl))
  apply Safe.ite (.bind safe_text fun s _ => leaf rfl)
  apply Safe.ite (.bind (.array 4) fun raw _ => .ite (leaf rfl) (.bad _))
  apply Safe.ite
  · refine .bind (.array 8) fun raw _ => ?_
    split
    · next t ht =>
        have hn := Clocks.millis_nanos _ _ ht
        refine .pure ?_
        rw [checkAt, if_neg hdepth, if_pos]
        simp only [wholeMs, Bool.and_eq_true, decide_eq_true_eq]
        omega
    · exact .bad _
  apply Safe.ite
  · refine .bind (.array 4) fun raw _ => ?_
    dsimp only
    split
    · next t ht =>
        obtain ⟨ht, -⟩ := Option.filter_eq_some_iff.mp ht
        have hn := Clocks.time_nanos _ _ _ ht
        refine .pure ?_
        rw [checkAt, if_neg hdepth, if_pos]
        simp only [wholeMs, Bool.and_eq_true, decide_eq_true_eq]
        omega
    · exact .bad _
  apply Safe.ite
  · refine .bind .count fun n _ => .bind (.items hv n) fun ds hds => .pure ?_
    rw [checkAt, if_neg hdepth]
    exact checkItems_iff.mpr hds
  apply Safe.ite
  · refine .bind .count fun n _ => .bind (safe_members hv n fun p hp => (by cases hp)) fun m hm => .pure ?_
    rw [checkAt, if_neg hdepth]
    exact checkMembers_iff.mpr hm
  · exact .bad _

theorem safe_value {levels depth : Nat} (h : depth + levels = maxDepth + 1) :
    Safe (fun d => checkAt d depth = .ok ()) (value levels) := by
  induction levels generalizing depth with
  | zero => exact .bad _
  | succ levels ih => exact .bind .byte fun t _ => safe_payload (by omega) (ih (by omega)) t

omit [Chrono] [Clocks] in
theorem levels_left : 1 + maxDepth = maxDepth + 1 := rfl

theorem decode_encode {d : Doc} (hcheck : check d = .ok ()) (hheld : held d = true) : decode (encode d) = .ok d := by
  have hbyte := Reads.byte version [] (encodeValue d) (Nat.zero_le _)
  have hvalue := reads_value d levels_left hcheck hheld [version] [] (Nat.zero_le _)
  rw [List.append_nil] at hvalue
  unfold decode encode
  rw [show byte ⟨version :: encodeValue d, 0⟩ = .ok version ⟨version :: encodeValue d, 1⟩ from hbyte]
  show (if version ≠ version then _ else _) = _
  rw [if_neg (by simp)]
  rw [show value maxDepth ⟨version :: encodeValue d, 1⟩ =
    .ok d ⟨version :: encodeValue d, 1 + (encodeValue d).length⟩ from hvalue]
  show (if 1 + (encodeValue d).length ≠ (version :: encodeValue d).length then _ else _) = _
  rw [if_neg (by rw [List.length_cons]; omega)]

theorem decode_ne_panic (bytes : Bytes) : decode bytes ≠ .error .panic := by
  obtain ⟨hok, hpanic⟩ := Safe.byte ⟨bytes, 0⟩ (Nat.zero_le _)
  unfold decode
  rcases hbyte : byte ⟨bytes, 0⟩ with ⟨v, r⟩ | ⟨_ | why, r⟩
  · obtain ⟨hb, hpos, -⟩ := hok v r hbyte
    dsimp only
    split
    · exact fun h => nomatch h
    · rcases hvalue : value maxDepth r with ⟨d, r'⟩ | ⟨e, r'⟩
      · dsimp only
        split
        · exact fun h => nomatch h
        · exact fun h => nomatch h
      · intro h
        obtain rfl := Except.error.inj h
        exact (safe_value levels_left r (by rwa [hb])).2 r' hvalue
  · exact absurd hbyte (hpanic r)
  · exact fun h => nomatch h

theorem decode_ok {bytes : Bytes} {d : Doc} (h : decode bytes = .ok d) :
    check d = .ok () ∧ ∃ r r', byte ⟨bytes, 0⟩ = .ok version r ∧ value maxDepth r = .ok d r' ∧ r'.pos = bytes.length := by
  obtain ⟨hok, -⟩ := Safe.byte ⟨bytes, 0⟩ (Nat.zero_le _)
  unfold decode at h
  rcases hbyte : byte ⟨bytes, 0⟩ with ⟨v, r⟩ | ⟨_ | why, r⟩
  · obtain ⟨hb, hpos, -⟩ := hok v r hbyte
    simp only [hbyte] at h
    split at h
    · exact nomatch h
    · next hversion =>
        rcases hvalue : value maxDepth r with ⟨d', r'⟩ | ⟨e, r'⟩
        · simp only [hvalue] at h
          split at h
          · exact nomatch h
          · next hend =>
              obtain rfl := Except.ok.inj h
              have hsafe := (safe_value levels_left r (by rwa [hb])).1 d' r' hvalue
              obtain rfl : v = version := by simpa using hversion
              exact ⟨hsafe.2.2, r, r', rfl, hvalue, by simpa using hend⟩
        · rw [hvalue] at h
          exact nomatch h
  · rw [hbyte] at h
    exact nomatch h
  · rw [hbyte] at h
    exact nomatch h

/-- The encoding loses nothing; whatever bytes are read, the reading ends without a
panic, and what it accepts is checked and goes to the last byte. -/
theorem kdoc_exact :
    (∀ d : Doc, check d = .ok () → held d = true → decode (encode d) = .ok d) ∧
    ∀ bytes : Bytes, decode bytes ≠ .error .panic ∧ ∀ d, decode bytes = .ok d →
      check d = .ok () ∧
        ∃ r r', byte ⟨bytes, 0⟩ = .ok version r ∧ value maxDepth r = .ok d r' ∧ r'.pos = bytes.length :=
  ⟨fun _ hcheck hheld => decode_encode hcheck hheld, fun bytes => ⟨decode_ne_panic bytes, fun _ h => decode_ok h⟩⟩

end

section Samples

/-- An instant: seconds since 1970 within the years of `chrono`, and nanoseconds. -/
structure Instant where
  secs : Int
  nanos : Nat
  from_ : -8334601228800 ≤ secs
  upto : secs ≤ 8210266876799
  nanos_lt : nanos < 2000000000
  deriving DecidableEq

structure DayTime where
  secs : Nat
  nanos : Nat
  secs_lt : secs < 86400
  nanos_lt : nanos < 2000000000
  deriving DecidableEq

def Instant.ofMillis (ms : Int64) : Option Instant :=
  if h : -8334601228800 ≤ ms.toInt / 1000 ∧ ms.toInt / 1000 ≤ 8210266876799 then
    some ⟨ms.toInt / 1000, (ms.toInt % 1000).toNat * 1000000, h.1, h.2, by omega⟩
  else none

def DayTime.of (secs nanos : Nat) : Option DayTime :=
  if h : secs < 86400 ∧ nanos < 2000000000 then some ⟨secs, nanos, h.1, h.2⟩ else none

local instance instants : Chrono where
  DateTime := Instant
  NaiveTime := DayTime
  decEqDateTime := inferInstance
  decEqNaiveTime := inferInstance
  iso t := s!"{t.secs}.{t.nanos}"
  timeText t := s!"{t.secs}.{t.nanos}"
  parseDatetime _ := none
  parseTime _ := none

local instance clocks : Clocks where
  nanosecond t := t.nanos
  timestampMillis t := Int64.ofInt (t.secs * 1000 + t.nanos / 1000000)
  fromTimestampMillis := Instant.ofMillis
  dateTimeText t := s!"{t.secs}.{t.nanos}"
  timeNanosecond t := t.nanos
  numSecondsFromMidnight t := t.secs
  fromNumSecondsFromMidnight := DayTime.of
  naiveTimeText t := s!"{t.secs}.{t.nanos}"
  millis_back := by
    rintro ⟨secs, nanos, hfrom, hupto, hlt⟩ hdvd hnanos
    obtain ⟨ms, rfl⟩ := hdvd
    have hms : ms < 1000 := by
      have : 1000000 * ms < 1000000000 := hnanos
      omega
    have hsame : (Int64.ofInt (secs * 1000 + ((1000000 * ms : Nat) : Int) / 1000000)).toInt = secs * 1000 + ms := by
      rw [Int64.toInt_ofInt_of_le (by omega) (by omega)]
      omega
    rw [Instant.ofMillis, dif_pos (by rw [hsame]; omega)]
    simp only [hsame, Option.some.injEq, Instant.mk.injEq]
    omega
  millis_nanos := by
    intro ms t h
    unfold Instant.ofMillis at h
    split at h
    · rw [← Option.some.inj h]
    · exact nomatch h
  time_back := fun t _ => dif_pos ⟨t.secs_lt, t.nanos_lt⟩
  time_secs := fun t => t.secs_lt
  time_nanos := by
    intro s n t h
    unfold DayTime.of at h
    split at h
    · rw [← Option.some.inj h]
    · exact nomatch h

/-- A leaf of each type. -/
def everyType : Doc :=
  .object [("a", .array [.null, .bool true, .int (-5), .str "é"]),
    ("b", .float ⟨true, 1023, 0⟩), ("c", .decimal ⟨-1250, 2, by decide, by decide⟩),
    ("d", .date ⟨2024, 2, 29, by decide, by decide, by decide, by decide⟩),
    ("e", .dateTime ⟨-1, 999000000, by decide, by decide, by decide⟩), ("f", .time ⟨86399, 1000000, by decide, by decide⟩)]

theorem kdoc_exact_everyType : check everyType = .ok () ∧ held everyType = true ∧
    decode (encode everyType) = .ok everyType := by
  have hcheck : check everyType = .ok () := by decide
  have hheld : held everyType = true := by decide
  exact ⟨hcheck, hheld, kdoc_exact.1 everyType hcheck hheld⟩

end Samples

end Kdoc

end KivaDb
