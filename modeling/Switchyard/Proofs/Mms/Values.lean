import Switchyard.Proofs.Mms.Answers

/-!
# Tagged values, written and read

A length has up to three forms, and a reader takes any of them. So a value that is
read is one that stands in the bytes in some form, and all of it (`takeTlv_eq_some_iff`).
A value is written in the shortest of these forms, and as long as the length of its
content fits in a word it is read back, whatever follows it (`readTagged_tlv`).

* `LengthForm`: the forms of a length.
* `Fronts`: a value at the front of some bytes, said without a reader.
-/

namespace Switchyard.Mms

variable {bytes content rest form : Bytes} {tag : UInt8} {n : ℕ}

/-- **The forms of a length**: a byte below 128, or a byte that counts the bytes of the length, and these. -/
inductive LengthForm : Bytes → ℕ → Prop
  | short {n : UInt8} (h : n < 0x80) : LengthForm [n] n.toNat
  | byte (n : UInt8) : LengthForm [0x81, n] n.toNat
  | word (high low : UInt8) : LengthForm [0x82, high, low] (Bytes.word high low).toNat

/-- **A value stands at the front of some bytes**: its tag, the length of its content in one of its forms, all of the
content, and then the rest. -/
def Fronts (tag : UInt8) (content rest bytes : Bytes) : Prop :=
  ∃ form, LengthForm form content.length ∧ bytes = tag :: (form ++ (content ++ rest))

/-- **A length that is read** stands there in one of its forms. -/
theorem readLength_eq_some_iff :
    readLength bytes = some (n, rest) ↔ ∃ form, LengthForm form n ∧ bytes = form ++ rest := by
  constructor
  · intro h
    unfold readLength at h
    split at h
    · cases h
    -- Three forms, by the first byte: the length itself, one byte behind it, or two.
    · rename_i first body
      split at h
      · rename_i hshort
        cases h
        exact ⟨_, .short hshort, rfl⟩
      split at h
      · rename_i hfirst
        subst hfirst
        split at h
        · cases h
          exact ⟨_, .byte _, rfl⟩
        · cases h
      split at h
      · rename_i hfirst
        subst hfirst
        split at h
        · cases h
          exact ⟨_, .word _ _, rfl⟩
        · cases h
      · cases h
  · rintro ⟨form, hform, rfl⟩
    cases hform with
    | short h => simp only [List.singleton_append, readLength, if_pos h]
    | byte n => rfl
    | word high low => rfl

/-- The shortest form is one of the forms, as long as the length fits in a word. -/
theorem lengthForm_lengthBytes (hn : n < 2 ^ 16) : LengthForm (lengthBytes n) n := by
  unfold lengthBytes
  split
  · rename_i hshort
    have hbyte : (UInt8.ofNat n).toNat = n := by
      rw [UInt8.toNat_ofNat']
      omega
    have hlt : UInt8.ofNat n < 0x80 := by
      rw [UInt8.lt_iff_toNat_lt, hbyte]
      exact hshort
    have h := LengthForm.short hlt
    rwa [hbyte] at h
  split
  · rename_i hbyte
    have hback : (UInt8.ofNat n).toNat = n := by
      rw [UInt8.toNat_ofNat']
      omega
    have h := LengthForm.byte (UInt8.ofNat n)
    rwa [hback] at h
  · have hback : (Bytes.word (UInt8.ofNat (n / 256)) (UInt8.ofNat n)).toNat = n := by
      rw [Bytes.word, UInt16.toNat_ofNat', UInt8.toNat_ofNat', UInt8.toNat_ofNat']
      omega
    have h := LengthForm.word (UInt8.ofNat (n / 256)) (UInt8.ofNat n)
    rwa [hback] at h

/-- **A value that is read** stands at the front of the bytes. -/
theorem takeTlv_eq_some_iff {t : Tlv} : takeTlv bytes = some t ↔ Fronts t.tag t.content t.rest bytes := by
  constructor
  · intro h
    cases bytes with
    | nil => cases h
    | cons tag body =>
      simp only [takeTlv] at h
      cases hread : readLength body with
      | none => rw [hread] at h; cases h
      | some found =>
        obtain ⟨n, after⟩ := found
        rw [hread] at h
        simp only at h
        split at h
        · rename_i hcomplete
          obtain rfl := Option.some.inj h
          obtain ⟨form, hform, rfl⟩ := readLength_eq_some_iff.1 hread
          -- The content is all there, so it has the length that was announced.
          have hlength : (after.take n).length = n := by
            rw [List.length_take]
            omega
          exact ⟨form, hlength.symm ▸ hform, by rw [List.take_append_drop]⟩
        · cases h
  · rintro ⟨form, hform, rfl⟩
    have hread : readLength (form ++ (t.content ++ t.rest)) = some (t.content.length, t.content ++ t.rest) :=
      readLength_eq_some_iff.2 ⟨form, hform, rfl⟩
    have hcomplete : t.content.length ≤ (t.content ++ t.rest).length := by
      rw [List.length_append]
      omega
    simp only [takeTlv, hread]
    rw [if_pos hcomplete, List.take_left, List.drop_left]

theorem readTagged_eq_some_iff {t : Tlv} :
    readTagged tag bytes = some t ↔ t.tag = tag ∧ Fronts tag t.content t.rest bytes := by
  rw [readTagged, Option.filter_eq_some_iff, takeTlv_eq_some_iff, beq_iff_eq]
  constructor
  · rintro ⟨hfronts, rfl⟩
    exact ⟨rfl, hfronts⟩
  · rintro ⟨rfl, hfronts⟩
    exact ⟨hfronts, rfl⟩

/-- A value that is written stands at the front of the bytes, in the shortest form. -/
theorem fronts_tlv (hcontent : content.length < 2 ^ 16) (rest : Bytes) :
    Fronts tag content rest (tlv tag content ++ rest) := by
  refine ⟨lengthBytes content.length, lengthForm_lengthBytes hcontent, ?_⟩
  rw [tlv, List.cons_append, List.append_assoc]

/-- **A value that is written is read back**, whatever follows it. -/
theorem readTagged_tlv (hcontent : content.length < 2 ^ 16) (rest : Bytes) :
    readTagged tag (tlv tag content ++ rest) = some ⟨tag, content, rest⟩ :=
  readTagged_eq_some_iff.2 ⟨rfl, fronts_tlv hcontent rest⟩

/-- A value at the end of the bytes. -/
theorem readTagged_tlv_last (hcontent : content.length < 2 ^ 16) :
    readTagged tag (tlv tag content) = some ⟨tag, content, []⟩ := by
  have h : readTagged tag (tlv tag content ++ []) = some ⟨tag, content, []⟩ := readTagged_tlv hcontent []
  rwa [List.append_nil] at h

/-- A value takes more bytes than its content. -/
theorem length_lt_tlv (tag : UInt8) (content : Bytes) : content.length < (tlv tag content).length := by
  rw [tlv, List.length_cons, List.length_append]
  omega

end Switchyard.Mms
