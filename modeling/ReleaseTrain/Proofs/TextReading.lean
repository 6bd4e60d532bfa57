import ReleaseTrain.Proofs.PathNames

namespace ReleaseTrain.Text

variable {b c d e : UInt8} {rest : Bytes}

theorem isContinuation_iff : isContinuation b = true ↔ 128 ≤ b.toNat ∧ b.toNat ≤ 191 := by
  simp [isContinuation, UInt8.le_iff_toNat_le]

theorem secondInRange_of_bounds (hc : isContinuation c = true)
    (h₀ : b.toNat = 224 → 160 ≤ c.toNat) (h₁ : b.toNat = 237 → c.toNat ≤ 159)
    (h₂ : b.toNat = 240 → 144 ≤ c.toNat) (h₃ : b.toNat = 244 → c.toNat ≤ 143) :
    secondInRange b c = true := by
  have hbounds := isContinuation_iff.1 hc
  unfold secondInRange
  split
  next heq => simpa [UInt8.le_iff_toNat_le, hbounds.2] using h₀ (heq ▸ rfl)
  split
  next heq => simpa [UInt8.le_iff_toNat_le, hbounds.1] using h₁ (heq ▸ rfl)
  split
  next heq => simpa [UInt8.le_iff_toNat_le, hbounds.2] using h₂ (heq ▸ rfl)
  split
  next heq => simpa [UInt8.le_iff_toNat_le, hbounds.1] using h₃ (heq ▸ rfl)
  · exact hc

theorem decodeFirst_one (h : b.toNat < 128) : decodeFirst b rest = .char (.ofNat b.toNat) 1 := by
  unfold decodeFirst
  exact if_pos h

theorem decodeFirst_two (hb : 194 ≤ b.toNat) (hb' : b.toNat ≤ 223) (hc : isContinuation c = true) :
    decodeFirst b (c :: rest) = .char (.ofNat (b.toNat % 32 * 64 + low6 c)) 2 := by
  have hlong : ¬b < 0x80 := Nat.not_lt.2 (Nat.le_trans (by decide) hb)
  have htwo : (0xC2 ≤ b && b ≤ 0xDF) = true := by simp [UInt8.le_iff_toNat_le, hb, hb']
  unfold decodeFirst
  rw [if_neg hlong, if_pos htwo]
  exact if_pos hc

theorem decodeFirst_three (hb : 224 ≤ b.toNat) (hb' : b.toNat ≤ 239)
    (hc : secondInRange b c = true) (hd : isContinuation d = true) :
    decodeFirst b (c :: d :: rest) =
      .char (.ofNat (b.toNat % 16 * 4096 + low6 c * 64 + low6 d)) 3 := by
  have hlong : ¬b < 0x80 := Nat.not_lt.2 (Nat.le_trans (by decide) hb)
  have htwo : ¬(0xC2 ≤ b && b ≤ 0xDF) = true := by
    simp [UInt8.le_iff_toNat_le]
    omega
  have hthree : (0xE0 ≤ b && b ≤ 0xEF) = true := by simp [UInt8.le_iff_toNat_le, hb, hb']
  unfold decodeFirst
  rw [if_neg hlong, if_neg htwo, if_pos hthree]
  exact (if_pos hc).trans (if_pos hd)

theorem decodeFirst_four (hb : 240 ≤ b.toNat) (hb' : b.toNat ≤ 244)
    (hc : secondInRange b c = true) (hd : isContinuation d = true)
    (he : isContinuation e = true) :
    decodeFirst b (c :: d :: e :: rest) =
      .char (.ofNat (b.toNat % 8 * 262144 + low6 c * 4096 + low6 d * 64 + low6 e)) 4 := by
  have hlong : ¬b < 0x80 := Nat.not_lt.2 (Nat.le_trans (by decide) hb)
  have htwo : ¬(0xC2 ≤ b && b ≤ 0xDF) = true := by
    simp [UInt8.le_iff_toNat_le]
    omega
  have hthree : ¬(0xE0 ≤ b && b ≤ 0xEF) = true := by
    simp [UInt8.le_iff_toNat_le]
    omega
  have hfour : (0xF0 ≤ b && b ≤ 0xF4) = true := by simp [UInt8.le_iff_toNat_le, hb, hb']
  unfold decodeFirst
  rw [if_neg hlong, if_neg htwo, if_neg hthree, if_pos hfour]
  exact (if_pos hc).trans ((if_pos hd).trans (if_pos he))

/-- The bytes that the code of a longer character goes on with. -/
def tailByte (n : Nat) : UInt8 := .ofNat (n % 64 + 128)

theorem utf8EncodeChar_eq (ch : Char) : String.utf8EncodeChar ch =
    if ch.toNat ≤ 127 then [.ofNat ch.toNat]
    else if ch.toNat ≤ 2047 then [.ofNat (ch.toNat / 64 % 32 + 192), tailByte ch.toNat]
    else if ch.toNat ≤ 65535 then
      [.ofNat (ch.toNat / 4096 % 16 + 224), tailByte (ch.toNat / 64), tailByte ch.toNat]
    else
      [.ofNat (ch.toNat / 262144 % 8 + 240), tailByte (ch.toNat / 4096), tailByte (ch.toNat / 64),
        tailByte ch.toNat] := rfl

theorem toNat_byte {n : Nat} (h : n < 256) : (UInt8.ofNat n).toNat = n :=
  UInt8.toNat_ofNat_of_lt' h

theorem toNat_tailByte (n : Nat) : (tailByte n).toNat = n % 64 + 128 := toNat_byte (by omega)

theorem isContinuation_tailByte (n : Nat) : isContinuation (tailByte n) = true := by
  rw [isContinuation_iff, toNat_tailByte]
  omega

theorem low6_tailByte (n : Nat) : low6 (tailByte n) = n % 64 := by
  rw [low6, toNat_tailByte]
  omega

theorem lossyChars_cons_char {n : Nat} {ch : Char} (h : decodeFirst b rest = .char ch n) :
    lossyChars (b :: rest) = ch :: lossyChars (rest.drop (n - 1)) := by
  rw [lossyChars, h]

theorem lossyChars_utf8EncodeChar (ch : Char) (rest : Bytes) :
    lossyChars (String.utf8EncodeChar ch ++ rest) = ch :: lossyChars rest := by
  have hvalid : ch.toNat < 55296 ∨ 57343 < ch.toNat ∧ ch.toNat < 1114112 := ch.valid
  have hchar {n : Nat} (h : n = ch.toNat) : Char.ofNat n = ch := by rw [h, Char.ofNat_toNat]
  rw [utf8EncodeChar_eq]
  generalize ch.toNat = v at hvalid hchar
  split
  · have hb : (UInt8.ofNat v).toNat = v := toNat_byte (by omega)
    have hfirst : decodeFirst (.ofNat v) rest = _ := decodeFirst_one (by omega)
    rw [hchar hb] at hfirst
    exact lossyChars_cons_char hfirst
  split
  · have hb : (UInt8.ofNat (v / 64 % 32 + 192)).toNat = v / 64 % 32 + 192 := toNat_byte (by omega)
    have hfirst : decodeFirst (.ofNat (v / 64 % 32 + 192)) (tailByte v :: rest) = _ :=
      decodeFirst_two (by omega) (by omega) (isContinuation_tailByte v)
    rw [hb, low6_tailByte, hchar (by omega)] at hfirst
    exact lossyChars_cons_char hfirst
  split
  · have hb : (UInt8.ofNat (v / 4096 % 16 + 224)).toNat = v / 4096 % 16 + 224 :=
      toNat_byte (by omega)
    have hsecond : secondInRange (.ofNat (v / 4096 % 16 + 224)) (tailByte (v / 64)) = true := by
      refine secondInRange_of_bounds (isContinuation_tailByte _) ?_ ?_ ?_ ?_ <;>
        rw [hb, toNat_tailByte] <;> omega
    have hfirst : decodeFirst _ (tailByte (v / 64) :: tailByte v :: rest) = _ :=
      decodeFirst_three (by omega) (by omega) hsecond (isContinuation_tailByte v)
    rw [hb, low6_tailByte, low6_tailByte, hchar (by omega)] at hfirst
    exact lossyChars_cons_char hfirst
  · have hb : (UInt8.ofNat (v / 262144 % 8 + 240)).toNat = v / 262144 % 8 + 240 :=
      toNat_byte (by omega)
    have hsecond : secondInRange (.ofNat (v / 262144 % 8 + 240)) (tailByte (v / 4096)) = true := by
      refine secondInRange_of_bounds (isContinuation_tailByte _) ?_ ?_ ?_ ?_ <;>
        rw [hb, toNat_tailByte] <;> omega
    have hfirst : decodeFirst _ (tailByte (v / 4096) :: tailByte (v / 64) :: tailByte v :: rest) =
        _ := decodeFirst_four (by omega) (by omega) hsecond (isContinuation_tailByte (v / 64))
          (isContinuation_tailByte v)
    rw [hb, low6_tailByte, low6_tailByte, low6_tailByte, hchar (by omega)] at hfirst
    exact lossyChars_cons_char hfirst

theorem lossyChars_encodeChars (cs : List Char) : lossyChars (encodeChars cs) = cs := by
  induction cs with
  | nil => rw [encodeChars_nil, lossyChars]
  | cons ch cs ih => rw [encodeChars_cons, lossyChars_utf8EncodeChar, ih]

/-- What encodes a text is read as that text. -/
theorem lossy_encode (s : String) : lossy (encode s) = s := by
  rw [lossy, encode_eq, lossyChars_encodeChars, String.ofList_toList]

theorem decode?_eq_some_iff {bs : Bytes} {s : String} : decode? bs = some s ↔ encode s = bs := by
  unfold decode? String.fromUTF8?
  constructor
  · intro h
    split at h
    · cases h
      simp [encode, String.fromUTF8]
    · cases h
  · rintro rfl
    have hbytes : (⟨(encode s).toArray⟩ : ByteArray) = s.toByteArray := by
      simp [encode]
    rw [hbytes, dif_pos s.isValidUTF8]
    rfl

end ReleaseTrain.Text
