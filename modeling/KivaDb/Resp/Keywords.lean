import KivaDb.Resp.Reply

namespace KivaDb.Resp

open Lib.LittleEndian Lib.Utf8

def toAsciiLowercase (b : UInt8) : UInt8 := if 65 ≤ b ∧ b ≤ 90 then b + 32 else b

def eqIgnoreAsciiCase (a b : Bytes) : Bool := a.map toAsciiLowercase == b.map toAsciiLowercase

/-- A name of capital letters. -/
def Keyword (word : Bytes) : Prop := ∀ b ∈ word, 65 ≤ b ∧ b ≤ 90

instance (word : Bytes) : Decidable (Keyword word) := List.decidableBAll (fun b => 65 ≤ b ∧ b ≤ 90) word

def spelled (word : Bytes) : String := String.ofList (word.map asciiChar)

theorem toNat_toAsciiLowercase (c : UInt8) :
    (toAsciiLowercase c).toNat = if 65 ≤ c.toNat ∧ c.toNat ≤ 90 then c.toNat + 32 else c.toNat := by
  have h : ∀ c < 256, (toAsciiLowercase (.ofNat c)).toNat = if 65 ≤ c ∧ c ≤ 90 then c + 32 else c := by decide +kernel
  have hc := h c.toNat c.toNat_lt
  rwa [UInt8.ofNat_toNat] at hc

theorem toUpper_eq_iff {c w : UInt8} (hc : c < 128) (hw : 65 ≤ w ∧ w ≤ 90) :
    (asciiChar c).toUpper = asciiChar w ↔ toAsciiLowercase c = toAsciiLowercase w := by
  have hupper : ∀ c < 128, (Char.ofNat c).toUpper.toNat = if 97 ≤ c ∧ c ≤ 122 then c - 32 else c := by decide
  have hsame : ∀ c < 128, (Char.ofNat c).toNat = c := by decide
  have hc' := UInt8.lt_iff_toNat_lt.mp hc
  have hw1 : 65 ≤ w.toNat := UInt8.le_iff_toNat_le.mp hw.1
  have hw2 : w.toNat ≤ 90 := UInt8.le_iff_toNat_le.mp hw.2
  have hcu := hupper c.toNat hc'
  have hwn := hsame w.toNat (by omega)
  have hcl := toNat_toAsciiLowercase c
  have hwl := toNat_toAsciiLowercase w
  rw [← UInt8.toNat_inj, ← Char.toNat_inj, asciiChar, asciiChar]
  change c.toNat < 128 at hc'
  split at hcu <;> split at hcl <;> split at hwl <;> omega

theorem letter_of_toAsciiLowercase {c w : UInt8} (hw : 65 ≤ w ∧ w ≤ 90) (h : toAsciiLowercase c = toAsciiLowercase w) :
    65 ≤ c.toNat ∧ c.toNat ≤ 90 ∨ 97 ≤ c.toNat ∧ c.toNat ≤ 122 := by
  have hw1 : 65 ≤ w.toNat := UInt8.le_iff_toNat_le.mp hw.1
  have hw2 : w.toNat ≤ 90 := UInt8.le_iff_toNat_le.mp hw.2
  have hcl := toNat_toAsciiLowercase c
  have hwl := toNat_toAsciiLowercase w
  rw [h] at hcl
  split at hcl <;> split at hwl <;> omega

theorem lt_of_toAsciiLowercase {c w : UInt8} (hw : 65 ≤ w ∧ w ≤ 90) (h : toAsciiLowercase c = toAsciiLowercase w) :
    c < 128 := by
  have hletter := letter_of_toAsciiLowercase hw h
  apply UInt8.lt_iff_toNat_lt.mpr
  change c.toNat < 128
  omega

theorem toNat_lt_of_toUpper {c : Char} {w : Nat} (hw : 65 ≤ w ∧ w ≤ 90) (h : c.toUpper = Char.ofNat w) : c.toNat < 128 := by
  by_cases hc : 'a' ≤ c ∧ c ≤ 'z'
  · have hle := hc.2
    rw [Char.le_def, UInt32.le_iff_toNat_le] at hle
    have hz : 'z'.val.toNat = 122 := rfl
    have hval : c.toNat = c.val.toNat := rfl
    omega
  · have hid : c.toUpper = c := by
      refine dif_neg ?_
      rintro ⟨h1, h2⟩
      exact hc ⟨h1, h2⟩
    have hsmall : ∀ w < 91, (Char.ofNat w).toNat = w := by decide
    rw [← hid, h, hsmall w (by omega)]
    omega

theorem ofNat_ascii {c : Char} (h : c.toNat < 128) : UInt8.ofNat c.toNat < 128 ∧ asciiChar (.ofNat c.toNat) = c := by
  have hnat : (UInt8.ofNat c.toNat).toNat = c.toNat := UInt8.toNat_ofNat_of_lt (h.trans (by decide))
  refine ⟨UInt8.lt_iff_toNat_lt.mpr ?_, ?_⟩
  · rw [hnat]
    exact h
  · rw [asciiChar, hnat, Char.ofNat_toNat]

theorem lossyFrom_ascii {b : Bytes} (h : ∀ c ∈ b, c < 128) {fuel : Nat} (hf : b.length ≤ fuel) :
    lossyFrom fuel b = b.map asciiChar := by
  induction b generalizing fuel with
  | nil => cases fuel <;> rfl
  | cons c b ih =>
      obtain ⟨hc, hb⟩ := List.forall_mem_cons.mp h
      obtain ⟨fuel, rfl⟩ : ∃ k, fuel = k + 1 := ⟨fuel - 1, by rw [List.length_cons] at hf; omega⟩
      have hwidth : width c = 1 := if_pos hc
      have hfollow : follow c b = [] := by
        cases b with
        | nil => rfl
        | cons d b => exact if_pos (Or.inl hwidth.le)
      have hone : fromUtf8 [c] = some (String.ofList [asciiChar c]) :=
        fromUtf8_ascii fun d hd => List.mem_singleton.mp hd ▸ hc
      have hrest : lossyFrom fuel b = b.map asciiChar := ih hb (by rw [List.length_cons] at hf; omega)
      simp only [lossyFrom, hfollow, hwidth, List.length_nil, Nat.zero_add, if_true, hone, List.drop_zero, hrest,
        String.toList_ofList, List.map_cons, List.singleton_append]

theorem lossy_ascii {b : Bytes} (h : ∀ c ∈ b, c < 128) : lossy b = String.ofList (b.map asciiChar) := by
  rw [lossy, lossyFrom_ascii h le_rfl]

/-- Text without a replacement character is the text its bytes are the encoding of. -/
theorem asBytes_lossyFrom {fuel : Nat} {b : Bytes} (hf : b.length ≤ fuel) (h : '\uFFFD' ∉ lossyFrom fuel b) :
    asBytes (String.ofList (lossyFrom fuel b)) = b := by
  induction fuel generalizing b with
  | zero =>
      obtain rfl := List.length_eq_zero_iff.mp (Nat.le_zero.mp hf)
      exact asBytes_eq_nil.mpr rfl
  | succ fuel ih =>
      cases b with
      | nil => exact asBytes_eq_nil.mpr rfl
      | cons c b =>
          have hpre : follow c b <+: b := by
            cases b with
            | nil => exact List.nil_prefix
            | cons d b =>
                simp only [follow]
                split
                · exact List.nil_prefix
                · exact (List.prefix_cons_inj d).mpr ((List.takeWhile_prefix _).trans (List.take_prefix _ _))
          obtain ⟨tail, htail⟩ := hpre
          have hdrop : b.drop (follow c b).length = tail := by
            have hleft : (follow c b ++ tail).drop (follow c b).length = tail := List.drop_left
            rwa [htail] at hleft
          simp only [lossyFrom, hdrop] at h ⊢
          have hlen : tail.length ≤ fuel := by
            have := congrArg List.length htail
            rw [List.length_append] at this
            rw [List.length_cons] at hf
            omega
          split at h
          · next s hs =>
            rw [List.mem_append, not_or] at h
            split at hs
            · have hi := ih hlen h.2
              rw [asBytes_ofList] at hi ⊢
              rw [List.flatMap_append, hi, ← asBytes_ofList, String.ofList_toList, asBytes_of_fromUtf8 hs,
                List.cons_append, htail]
            · cases hs
          · exact absurd List.mem_cons_self h

theorem lt_of_eqIgnoreAsciiCase {word b : Bytes} (hw : Keyword word) (h : eqIgnoreAsciiCase b word = true) :
    ∀ c ∈ b, c < 128 := by
  intro c hc
  rw [eqIgnoreAsciiCase, beq_iff_eq] at h
  obtain ⟨w, hmem, heq⟩ := List.mem_map.mp (h ▸ List.mem_map_of_mem hc)
  exact lt_of_toAsciiLowercase (hw w hmem) heq.symm

theorem toList_upper (b : Bytes) : (upper b).toList = (lossyFrom b.length b).map Char.toUpper := by
  rw [upper, String.toUpper, String.toList_map, lossy, String.toList_ofList]

/-- The two ways to look for a keyword find the same arguments. -/
theorem upper_eq_iff {word : Bytes} (hw : Keyword word) {b : Bytes} :
    upper b = spelled word ↔ eqIgnoreAsciiCase b word = true := by
  have hchar (w : UInt8) (h : 65 ≤ w ∧ w ≤ 90) : 65 ≤ w.toNat ∧ w.toNat ≤ 90 :=
    ⟨UInt8.le_iff_toNat_le.mp h.1, UInt8.le_iff_toNat_le.mp h.2⟩
  constructor
  · intro h
    have hmap := congrArg String.toList h
    rw [toList_upper, spelled, String.toList_ofList] at hmap
    have hascii : ∀ c ∈ lossyFrom b.length b, c.toNat < 128 := by
      intro c hc
      obtain ⟨w, hmem, heq⟩ := List.mem_map.mp (hmap ▸ List.mem_map_of_mem hc)
      exact toNat_lt_of_toUpper (hchar w (hw w hmem)) heq.symm
    have hvalid : '\uFFFD' ∉ lossyFrom b.length b := fun hc => absurd (hascii _ hc) (by decide)
    have hb := asBytes_lossyFrom le_rfl hvalid
    generalize lossyFrom b.length b = cs at hmap hascii hb
    rw [asBytes_ofList] at hb
    rw [← hb, eqIgnoreAsciiCase, beq_iff_eq]
    clear hb hvalid h
    induction cs generalizing word with
    | nil =>
        obtain rfl := List.map_eq_nil_iff.mp hmap.symm
        rfl
    | cons c cs ih =>
        cases word with
        | nil => exact nomatch hmap
        | cons w word =>
            obtain ⟨hc, hcs⟩ := List.forall_mem_cons.mp hascii
            obtain ⟨hw0, hword⟩ := List.forall_mem_cons.mp hw
            obtain ⟨h0, hrest⟩ := List.cons.inj hmap
            obtain ⟨hsmall, hback⟩ := ofNat_ascii hc
            have h1 := (toUpper_eq_iff hsmall hw0).mp ((congrArg Char.toUpper hback).trans h0)
            rw [List.flatMap_cons, utf8EncodeChar_ascii hc, List.singleton_append, List.map_cons, List.map_cons, h1,
              ih hword hrest hcs]
  · intro h
    have hascii := lt_of_eqIgnoreAsciiCase hw h
    rw [eqIgnoreAsciiCase, beq_iff_eq] at h
    apply String.toList_inj.mp
    rw [toList_upper, lossyFrom_ascii hascii le_rfl, spelled, String.toList_ofList]
    induction b generalizing word with
    | nil =>
        obtain rfl := List.map_eq_nil_iff.mp h.symm
        rfl
    | cons c b ih =>
        cases word with
        | nil => exact nomatch h
        | cons w word =>
            obtain ⟨hc, hb⟩ := List.forall_mem_cons.mp hascii
            obtain ⟨hw0, hword⟩ := List.forall_mem_cons.mp hw
            obtain ⟨h0, hrest⟩ := List.cons.inj h
            rw [List.map_cons, List.map_cons, List.map_cons, ih hword hrest hb, (toUpper_eq_iff hc hw0).mpr h0]

/-- A keyword is no number. -/
theorem int_keyword {word : Bytes} (hw : Keyword word) (hne : word ≠ []) {b : Bytes} (h : upper b = spelled word) (n : Int64) :
    int b ≠ .ok n := by
  have heq := (upper_eq_iff hw).mp h
  have hascii := lt_of_eqIgnoreAsciiCase hw heq
  rw [eqIgnoreAsciiCase, beq_iff_eq] at heq
  cases word with
  | nil => exact absurd rfl hne
  | cons w word =>
      cases b with
      | nil => cases heq
      | cons c b =>
          have hletter : ∀ c < 123, 65 ≤ c → ((Char.ofNat c).isDigit || Char.ofNat c == '-' || Char.ofNat c == '+') = false := by
            decide
          have hrange := letter_of_toAsciiLowercase (hw w List.mem_cons_self) (List.cons.inj heq).1
          have hnot := hletter c.toNat (by omega) (by omega)
          rw [Bool.or_eq_false_iff, Bool.or_eq_false_iff, beq_eq_false_iff_ne, beq_eq_false_iff_ne] at hnot
          obtain ⟨⟨hdigit, hminus⟩, hplus⟩ := hnot
          have hsigned : signed (Char.ofNat c.toNat :: b.map asciiChar) = (false, Char.ofNat c.toNat :: b.map asciiChar) := by
            unfold signed
            split
            · next h => exact absurd (List.cons.inj h).1 hminus
            · next h => exact absurd (List.cons.inj h).1 hplus
            · rfl
          have hnone : parseI64 (String.ofList ((c :: b).map asciiChar)) = none := by
            rw [parseI64, String.toList_ofList, List.map_cons, asciiChar, hsigned]
            simp only [List.isEmpty_cons, List.all_cons, hdigit, Bool.false_and, Bool.not_false, Bool.or_true, if_true]
          rw [int, fromUtf8_ascii hascii, Option.bind_some, hnone]
          rintro ⟨⟩

end KivaDb.Resp
