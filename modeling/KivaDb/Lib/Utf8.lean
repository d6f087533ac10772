import KivaDb.Lib.LittleEndian

namespace KivaDb.Lib.Utf8

open LittleEndian

def asBytes (s : String) : Bytes := s.toUTF8.data.toList

def fromUtf8 (b : Bytes) : Option String := String.fromUTF8? ⟨b.toArray⟩

theorem fromUtf8_asBytes (s : String) : fromUtf8 (asBytes s) = some s := by
  have hb : (⟨(asBytes s).toArray⟩ : ByteArray) = s.toUTF8 := by
    simp [asBytes]
  have hv : s.toUTF8.IsValidUTF8 := s.isValidUTF8
  rw [fromUtf8, hb, String.fromUTF8?, dif_pos (by simpa using hv)]
  rfl

theorem asBytes_of_fromUtf8 {b : Bytes} {s : String} (h : fromUtf8 b = some s) : asBytes s = b := by
  unfold fromUtf8 String.fromUTF8? at h
  split at h
  · rw [← Option.some.inj h]
    rfl
  · exact nomatch h

theorem asBytes_injective : Function.Injective asBytes := by
  intro s t h
  have hs := fromUtf8_asBytes s
  rw [h, fromUtf8_asBytes] at hs
  exact (Option.some.inj hs).symm

theorem asBytes_eq_nil {s : String} : asBytes s = [] ↔ s = "" := by
  constructor
  · intro h
    apply asBytes_injective
    rw [h]
    decide
  · rintro rfl
    decide

def asciiChar (b : UInt8) : Char := Char.ofNat b.toNat

theorem asBytes_ofList (cs : List Char) : asBytes (String.ofList cs) = cs.flatMap String.utf8EncodeChar := by
  rw [asBytes, String.toUTF8_eq_toByteArray, String.toByteArray_ofList, List.utf8Encode, List.toList_data_toByteArray]

theorem utf8EncodeChar_ascii {c : Char} (h : c.toNat < 128) : String.utf8EncodeChar c = [UInt8.ofNat c.toNat] := by
  have hbyte : ∀ n < 128, String.utf8EncodeChar (Char.ofNat n) = [UInt8.ofNat n] := by decide
  have hb := hbyte c.toNat h
  rwa [Char.ofNat_toNat] at hb

/-- A byte below 128 of a character is all of it. -/
theorem eq_of_mem_utf8EncodeChar {c : Char} {b : UInt8} (h : b ∈ String.utf8EncodeChar c) (hb : b < 128) : c = asciiChar b := by
  by_cases hc : c.toNat < 128
  · rw [utf8EncodeChar_ascii hc] at h
    have hnat : (UInt8.ofNat c.toNat).toNat = c.toNat := UInt8.toNat_ofNat_of_lt (hc.trans (by decide))
    rw [List.mem_singleton.mp h, asciiChar, hnat, Char.ofNat_toNat]
  · have hlt : b.toNat < 128 := UInt8.lt_iff_toNat_lt.mp hb
    have hval : c.toNat = c.val.toNat := rfl
    unfold String.utf8EncodeChar at h
    dsimp only at h
    split at h
    · omega
    split at h
    · simp only [List.mem_cons, List.not_mem_nil, or_false] at h
      rcases h with rfl | rfl <;> simp only [UInt8.toNat_ofNat'] at hlt <;> omega
    split at h
    · simp only [List.mem_cons, List.not_mem_nil, or_false] at h
      rcases h with rfl | rfl | rfl <;> simp only [UInt8.toNat_ofNat'] at hlt <;> omega
    · simp only [List.mem_cons, List.not_mem_nil, or_false] at h
      rcases h with rfl | rfl | rfl | rfl <;> simp only [UInt8.toNat_ofNat'] at hlt <;> omega

theorem mem_asBytes {s : String} {b : UInt8} (hb : b < 128) (h : b ∈ asBytes s) : asciiChar b ∈ s.toList := by
  rw [← String.ofList_toList (s := s), asBytes_ofList, List.mem_flatMap] at h
  obtain ⟨c, hc, hbc⟩ := h
  rwa [← eq_of_mem_utf8EncodeChar hbc hb]

/-- Bytes below 128 are the characters of a text. -/
theorem fromUtf8_ascii {l : Bytes} (h : ∀ b ∈ l, b < 128) : fromUtf8 l = some (String.ofList (l.map asciiChar)) := by
  have hbyte : ∀ n < 128, String.utf8EncodeChar (Char.ofNat n) = [UInt8.ofNat n] := by decide
  have hl : asBytes (String.ofList (l.map asciiChar)) = l := by
    rw [asBytes_ofList, List.flatMap_map]
    induction l with
    | nil => rfl
    | cons b l ih =>
        obtain ⟨hb, h⟩ := List.forall_mem_cons.mp h
        rw [List.flatMap_cons, ih h, asciiChar, hbyte b.toNat (UInt8.lt_iff_toNat_lt.mp hb), UInt8.ofNat_toNat]
        rfl
  rw [← fromUtf8_asBytes, hl]

end KivaDb.Lib.Utf8
