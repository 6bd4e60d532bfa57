import Mathlib.Algebra.Order.Ring.Rat
import Mathlib.Tactic.FieldSimp
import Mathlib.Tactic.Linarith
import Mathlib.Tactic.NormNum
import ReleaseTrain.Proofs.Rounding
import ReleaseTrain.Proofs.VersionGrammar

namespace ReleaseTrain

namespace Text

def natural? (cs : List Char) : Option ℕ :=
  if cs ≠ [] ∧ cs.all Char.isDigit = true then some (Nat.ofDigitChars 10 cs 0) else none

def decimal? (cs : List Char) : Option ℚ :=
  match pieces '.' cs with
  | [whole] => (natural? whole).map (↑)
  | [whole, fraction] => do
    return ↑(← natural? whole) + ↑(← natural? fraction) / 10 ^ fraction.length
  | _ => none

variable {n : ℕ} {c : Char}

theorem isDigit_of_mem_repr (h : c ∈ n.repr.toList) : c.isDigit = true := by
  rw [Nat.toList_repr] at h
  exact Nat.isDigit_of_mem_toDigits (by decide) (by decide) h

theorem notMem_repr (hc : c.isDigit = false) : c ∉ n.repr.toList := by
  intro hmem
  rw [isDigit_of_mem_repr hmem] at hc
  cases hc

theorem natural?_repr (n : ℕ) : natural? n.repr.toList = some n := by
  have hne : n.repr.toList ≠ [] := by
    rw [Nat.toList_repr]
    exact Nat.toDigits_ne_nil
  have hall : n.repr.toList.all Char.isDigit = true :=
    List.all_eq_true.2 fun c hc ↦ isDigit_of_mem_repr hc
  rw [natural?, if_pos ⟨hne, hall⟩, Nat.toList_repr, Nat.ofDigitChars_ten_toDigits]

theorem decimal?_repr (n : ℕ) : decimal? n.repr.toList = some (n : ℚ) := by
  rw [decimal?, pieces_of_notMem (notMem_repr rfl)]
  dsimp only
  rw [natural?_repr]
  rfl

theorem decimal?_point {d : ℕ} (hd : d < 10) :
    decimal? (n.repr.toList ++ '.' :: d.repr.toList) = some ((n : ℚ) + d / 10) := by
  have hlength : d.repr.toList.length = 1 := by
    rw [Nat.toList_repr, Nat.toDigits_of_lt_base hd]
    rfl
  rw [decimal?, pieces_append_sep (notMem_repr rfl), pieces_of_notMem (notMem_repr rfl)]
  dsimp only
  rw [natural?_repr, natural?_repr, hlength, pow_one]
  rfl

end Text

namespace SizeUnit

def all : List SizeUnit := [byte, kilobyte, megabyte, gigabyte]

def ofText? (text : String) : Option SizeUnit := all.find? (·.text = text)

theorem ofText?_text (u : SizeUnit) : ofText? u.text = some u := by
  cases u <;> decide

theorem bytes_pos (u : SizeUnit) : 0 < u.bytes := by
  cases u <;> decide

end SizeUnit

/-- A printed size as it is understood: a number of units. -/
structure Measure where
  number : ℚ
  unit : SizeUnit

namespace Measure

def inBytes (m : Measure) : ℚ := m.number * m.unit.bytes

def ofText? (text : String) : Option Measure :=
  match Text.pieces ' ' text.toList with
  | [number, unit] => do return ⟨← Text.decimal? number, ← SizeUnit.ofText? (.ofList unit)⟩
  | _ => none

end Measure

def Size.measure (s : Size) : Measure := ⟨s.tenths / 10, s.unit⟩

theorem SizeUnit.blank_notMem_text (u : SizeUnit) : ' ' ∉ u.text.toList := by
  cases u <;> decide

theorem Measure.ofText?_eq {text : String} {number : List Char} {x : ℚ} {u : SizeUnit}
    (htext : text.toList = number ++ ' ' :: u.text.toList) (hblank : ' ' ∉ number)
    (hnumber : Text.decimal? number = some x) : ofText? text = some ⟨x, u⟩ := by
  rw [ofText?, htext, Text.pieces_append_sep hblank, Text.pieces_of_notMem u.blank_notMem_text]
  dsimp only
  rw [hnumber, String.ofList_toList, SizeUnit.ofText?_text]
  rfl

theorem Measure.ofText?_text {s : Size} (h : s.unit = .byte → 10 ∣ s.tenths) :
    ofText? s.text = some s.measure := by
  obtain ⟨tenths, unit⟩ := s
  have hsplit : ((tenths / 10 : ℕ) : ℚ) + (tenths % 10 : ℕ) / 10 = tenths / 10 := by
    have hmod : ((10 * (tenths / 10) + tenths % 10 : ℕ) : ℚ) = tenths :=
      congrArg Nat.cast (Nat.div_add_mod tenths 10)
    push_cast at hmod
    linarith
  have hpoint {u : SizeUnit} {text : String}
      (htext : text.toList = (tenths / 10).repr.toList ++ '.' :: (tenths % 10).repr.toList ++
        ' ' :: u.text.toList) : ofText? text = some ⟨tenths / 10, u⟩ := by
    refine ofText?_eq htext ?_ ?_
    · exact List.not_mem_append (Text.notMem_repr rfl)
        (List.not_mem_cons_of_ne_of_not_mem (by decide) (Text.notMem_repr rfl))
    · rw [Text.decimal?_point (Nat.mod_lt _ (by decide)), hsplit]
  cases unit with
  | byte =>
    obtain ⟨n, rfl⟩ := h rfl
    have hn : 10 * n / 10 = n := Nat.mul_div_cancel_left n (by decide)
    have hvalue : (((10 * n : ℕ) : ℚ) / 10) = n := by
      push_cast
      ring
    rw [Size.measure, hvalue]
    refine ofText?_eq ?_ (Text.notMem_repr rfl) (Text.decimal?_repr n)
    rw [Size.text, hn]
    simp [String.toList_append]
    rfl
  | kilobyte | megabyte | gigabyte =>
    refine hpoint ?_
    rw [Size.text]
    simp [String.toList_append]
    rfl

namespace SizeUnit

theorem bytes_le_of_ofBytes {n : ℕ} (h : n ≠ 0) : (ofBytes n).bytes ≤ n := by
  unfold ofBytes
  split
  next => exact Nat.one_le_iff_ne_zero.2 h
  next hk =>
  split
  next => exact not_lt.1 hk
  next hm =>
  split
  next => exact not_lt.1 hm
  next hg => exact not_lt.1 hg

theorem lt_of_ofBytes {n : ℕ} (h : ofBytes n ≠ gigabyte) : n < 1024 * (ofBytes n).bytes := by
  unfold ofBytes at h ⊢
  split
  next hk => exact hk
  next =>
  split
  next hm => exact hm
  next =>
  split
  next hg => exact hg
  next hm hg => simp_all

/-- A larger count has the same unit or one that lies in between. -/
theorem ofBytes_eq_or_between {m n : ℕ} (h : m ≤ n) : ofBytes m = ofBytes n ∨
    m ≤ (ofBytes n).bytes ∧ (ofBytes n).bytes ≤ n ∧ (ofBytes m).bytes ∣ (ofBytes n).bytes := by
  by_cases heq : ofBytes m = ofBytes n
  · exact .inl heq
  · refine .inr ?_
    revert heq
    unfold ofBytes
    split_ifs <;> simp only [bytes, not_true_eq_false, false_implies,
      not_false_eq_true, true_implies] <;> omega

end SizeUnit

namespace Size

variable {m n : ℕ}

theorem nearest_tenths (n : ℕ) :
    Nearest (10 * nearestDouble n) (ofBytes n).unit.bytes (ofBytes n).tenths :=
  nearest_roundHalfEven _ (SizeUnit.bytes_pos _)

theorem tenths_mono (h : m ≤ n) :
    (ofBytes m).tenths * (ofBytes m).unit.bytes ≤ (ofBytes n).tenths * (ofBytes n).unit.bytes := by
  refine roundHalfEven_mul_mono (SizeUnit.bytes_pos _) (SizeUnit.bytes_pos _)
    (nearestDouble_mono h) ?_
  obtain heq | ⟨hle, hge, hdvd⟩ := SizeUnit.ofBytes_eq_or_between (nearestDouble_mono h)
  · exact .inl (congrArg SizeUnit.bytes heq)
  · exact .inr ⟨_, hle, hge, hdvd.mul_left 10, Nat.dvd_mul_left _ 10⟩

theorem nearestDouble_of_unit (h : (ofBytes n).unit ≠ .gigabyte) : nearestDouble n = n := by
  refine nearestDouble_of_le ?_
  by_contra hlt
  have hmono : 2 ^ 53 ≤ nearestDouble n := by
    rw [← nearestDouble_of_le le_rfl]
    exact nearestDouble_mono (not_le.1 hlt).le
  have hbound := SizeUnit.lt_of_ofBytes h
  have hbytes : (SizeUnit.ofBytes (nearestDouble n)).bytes ≤ 1024 * 1024 * 1024 := by
    cases SizeUnit.ofBytes (nearestDouble n) <;> decide
  omega

theorem tenths_byte (h : (ofBytes n).unit = .byte) : (ofBytes n).tenths = 10 * n := by
  have hn : nearestDouble n = n := nearestDouble_of_unit (by rw [h]; decide)
  have hround := roundHalfEven_mul_of_dvd Nat.one_pos (one_dvd (10 * n))
  have hunit : SizeUnit.ofBytes (nearestDouble n) = .byte := h
  rw [ofBytes, hunit, hn]
  exact (Nat.mul_one _).symm.trans hround

theorem ofText?_text (n : ℕ) : Measure.ofText? (ofBytes n).text = some (ofBytes n).measure :=
  Measure.ofText?_text fun h ↦ ⟨n, tenths_byte h⟩

theorem inBytes_measure (s : Size) : s.measure.inBytes = (s.tenths * s.unit.bytes : ℕ) / 10 := by
  rw [measure, Measure.inBytes]
  push_cast
  ring

theorem abs_inBytes_sub_le (h : n ≤ 2 ^ 53) :
    |(ofBytes n).measure.inBytes - n| ≤ 1 / 20 * (ofBytes n).unit.bytes := by
  have hnear := nearest_tenths n
  rw [nearestDouble_of_le h] at hnear
  have hbelow : ((2 * ((ofBytes n).tenths * (ofBytes n).unit.bytes) : ℕ) : ℚ) ≤
      ((2 * (10 * n) + (ofBytes n).unit.bytes : ℕ) : ℚ) := Nat.cast_le.2 hnear.below
  have habove : ((2 * (10 * n) : ℕ) : ℚ) ≤
      ((2 * ((ofBytes n).tenths * (ofBytes n).unit.bytes) + (ofBytes n).unit.bytes : ℕ) : ℚ) :=
    Nat.cast_le.2 hnear.above
  rw [inBytes_measure, abs_le]
  push_cast at hbelow habove ⊢
  constructor <;> linarith

end Size

/-- Printed sizes are read back in the order of the counts they were made of, also across units and
above the counts that are doubles. Up to `2 ^ 53` bytes they are off by a twentieth of their unit at
most, and not at all in bytes. What is printed is the nearest number of tenths, a tie going to the
even one, of the nearest double. -/
theorem printed_size_faithful :
    (∀ a b, a ≤ b → ∃ x y, Measure.ofText? (Size.ofBytes a).text = some x ∧
        Measure.ofText? (Size.ofBytes b).text = some y ∧ x.inBytes ≤ y.inBytes) ∧
      (∀ b : ℕ, b ≤ 2 ^ 53 → ∃ x, Measure.ofText? (Size.ofBytes b).text = some x ∧
        |x.inBytes - b| ≤ 1 / 20 * x.unit.bytes ∧ (x.unit = .byte → x.inBytes = b)) ∧
      ∀ b : ℕ, ∃ (x : Measure) (d t : ℕ), Measure.ofText? (Size.ofBytes b).text = some x ∧
        IsDouble d ∧ (∀ e : ℕ, IsDouble e → |(b : ℤ) - d| ≤ |(b : ℤ) - e|) ∧
          x.number = t / 10 ∧ Nearest (10 * d) x.unit.bytes t := by
  refine ⟨fun a b hab ↦ ?_, fun b hb ↦ ?_, fun b ↦ ?_⟩
  · refine ⟨_, _, Size.ofText?_text a, Size.ofText?_text b, ?_⟩
    rw [Size.inBytes_measure, Size.inBytes_measure]
    have hle : ((Size.ofBytes a).tenths * (Size.ofBytes a).unit.bytes : ℕ) ≤
        (((Size.ofBytes b).tenths * (Size.ofBytes b).unit.bytes : ℕ) : ℚ) :=
      Nat.cast_le.2 (Size.tenths_mono hab)
    linarith
  · refine ⟨_, Size.ofText?_text b, Size.abs_inBytes_sub_le hb, fun hunit ↦ ?_⟩
    have hbytes : (Size.ofBytes b).unit.bytes = 1 := congrArg SizeUnit.bytes hunit
    rw [Size.inBytes_measure, Size.tenths_byte hunit, hbytes]
    push_cast
    ring
  · exact ⟨_, nearestDouble b, (Size.ofBytes b).tenths, Size.ofText?_text b,
      isDouble_nearestDouble b, fun e ↦ nearestDouble_nearest, rfl, Size.nearest_tenths b⟩

theorem printed_size_faithful_rehearsed :
    (∃ x y, Measure.ofText? (Size.ofBytes 1048575).text = some x ∧
        Measure.ofText? (Size.ofBytes 1048577).text = some y ∧ x.inBytes ≤ y.inBytes) ∧
      ∃ x, Measure.ofText? (Size.ofBytes 1048575).text = some x ∧
        |x.inBytes - (1048575 : ℕ)| ≤ 1 / 20 * x.unit.bytes ∧
          (x.unit = .byte → x.inBytes = (1048575 : ℕ)) := by
  obtain ⟨horder, herror, -⟩ := printed_size_faithful
  exact ⟨horder 1048575 1048577 (by decide), herror 1048575 (by decide)⟩

namespace Size

variable {n : ℕ}

theorem tenths_zero : (ofBytes 0).tenths = 0 := by
  decide

theorem ten_le_tenths (h : n ≠ 0) : 10 ≤ (ofBytes n).tenths := by
  have hdouble : nearestDouble n ≠ 0 := by
    have hone : nearestDouble 1 ≤ nearestDouble n := nearestDouble_mono (Nat.one_le_iff_ne_zero.2 h)
    rw [nearestDouble_of_le (by decide)] at hone
    omega
  have hunit := SizeUnit.bytes_le_of_ofBytes hdouble
  have hpos := SizeUnit.bytes_pos (ofBytes n).unit
  refine Nat.le_of_mul_le_mul_right ?_ hpos
  calc 10 * (ofBytes n).unit.bytes
      = roundHalfEven (10 * (ofBytes n).unit.bytes) (ofBytes n).unit.bytes *
          (ofBytes n).unit.bytes := (roundHalfEven_mul_of_dvd hpos (Nat.dvd_mul_left _ 10)).symm
    _ ≤ (ofBytes n).tenths * (ofBytes n).unit.bytes :=
        Nat.mul_le_mul_right _ (roundHalfEven_mono hpos (Nat.mul_le_mul_left 10 hunit))

theorem lt_of_unit (h : (ofBytes n).unit ≠ .gigabyte) : n < 1024 * (ofBytes n).unit.bytes :=
  (nearestDouble_of_unit h).symm.trans_lt (SizeUnit.lt_of_ofBytes h)

theorem tenths_le_and_eq_iff (h : (ofBytes n).unit ≠ .gigabyte) :
    (ofBytes n).tenths ≤ 10240 ∧ ((ofBytes n).tenths = 10240 ↔
      20479 * (ofBytes n).unit.bytes ≤ 20 * n) := by
  have hlt := lt_of_unit h
  have hnear := nearest_tenths n
  rw [nearestDouble_of_unit h] at hnear
  obtain ⟨hbelow, habove, heven⟩ := hnear
  have hle : (ofBytes n).tenths ≤ 10240 := by
    by_contra hgt
    have hmul := Nat.mul_le_mul_right (ofBytes n).unit.bytes (not_le.1 hgt)
    omega
  refine ⟨hle, fun heq ↦ ?_, fun hnext ↦ ?_⟩
  · rw [heq] at hbelow
    omega
  · by_contra hne
    have hless : (ofBytes n).tenths ≤ 10239 := by omega
    have hmul := Nat.mul_le_mul_right (ofBytes n).unit.bytes hless
    -- What is left is the tie below the next unit, and 10239 is not even.
    have htie := heven (.inr (by omega))
    have hodd : (ofBytes n).tenths = 10239 :=
      Nat.eq_of_mul_eq_mul_right (SizeUnit.bytes_pos (ofBytes n).unit) (by omega)
    rw [hodd] at htie
    exact absurd htie (by decide)

theorem tenths_eq_iff (h : (ofBytes n).unit ≠ .gigabyte) : (ofBytes n).tenths = 10240 ↔
    1048525 ≤ n ∧ n < 1048576 ∨ 1073689396 ≤ n ∧ n < 1073741824 := by
  have hlt := lt_of_unit h
  have hpos : n ≠ 0 → (ofBytes n).unit.bytes ≤ n := by
    intro hn
    have hunit := SizeUnit.bytes_le_of_ofBytes ((nearestDouble_of_unit h).trans_ne hn)
    exact hunit.trans_eq (nearestDouble_of_unit h)
  rw [(tenths_le_and_eq_iff h).2]
  cases hunit : (ofBytes n).unit with
  | gigabyte => exact absurd hunit h
  | byte | kilobyte | megabyte =>
    rw [hunit] at hlt hpos
    simp only [SizeUnit.bytes] at hlt hpos ⊢
    omega

end Size

/-- The number that is printed fits its unit, but for a few counts: it is zero only for none, at
least one else, and in a unit below the largest it is at most 1024. It is 1024, in place of one of
the next unit, exactly for the 51 counts below a megabyte and the 52428 below a gigabyte that are
nearer to it than half a tenth. -/
theorem printed_unit (n : ℕ) : ∃ x, Measure.ofText? (Size.ofBytes n).text = some x ∧
    (x.number = 0 ↔ n = 0) ∧ (n ≠ 0 → 1 ≤ x.number) ∧
      (x.unit ≠ .gigabyte → x.number ≤ 1024 ∧ (x.number = 1024 ↔
        1048525 ≤ n ∧ n < 1048576 ∨ 1073689396 ≤ n ∧ n < 1073741824)) := by
  have hmin (hn : n ≠ 0) : 1 ≤ (Size.ofBytes n).measure.number := by
    have hten : ((10 : ℕ) : ℚ) ≤ (Size.ofBytes n).tenths := Nat.cast_le.2 (Size.ten_le_tenths hn)
    rw [Size.measure]
    push_cast at hten
    dsimp only
    linarith
  refine ⟨_, Size.ofText?_text n, ?_, hmin, fun hunit ↦ ?_⟩
  · refine ⟨fun hzero ↦ ?_, ?_⟩
    · by_contra hn
      have hone := hmin hn
      rw [hzero] at hone
      norm_num at hone
    · rintro rfl
      rw [Size.measure, Size.tenths_zero]
      norm_num
  · obtain ⟨hle, -⟩ := Size.tenths_le_and_eq_iff hunit
    have hcast : ((Size.ofBytes n).tenths : ℚ) ≤ (10240 : ℕ) := Nat.cast_le.2 hle
    rw [← Size.tenths_eq_iff hunit, Size.measure]
    dsimp only
    push_cast at hcast
    refine ⟨by linarith, fun heq ↦ ?_, fun heq ↦ ?_⟩
    · have htenths : ((Size.ofBytes n).tenths : ℚ) = (10240 : ℕ) := by
        push_cast
        linarith
      exact Nat.cast_inj.1 htenths
    · rw [heq]
      norm_num

theorem printed_unit_rehearsed : ∃ x, Measure.ofText? (Size.ofBytes 1048524).text = some x ∧
    1 ≤ x.number ∧ (x.unit ≠ .gigabyte → x.number < 1024) := by
  obtain ⟨x, hx, -, hmin, hmax⟩ := printed_unit 1048524
  refine ⟨x, hx, hmin (by decide), fun hunit ↦ ?_⟩
  obtain ⟨hle, hfull⟩ := hmax hunit
  exact hle.lt_of_ne fun heq ↦ absurd (hfull.1 heq) (by decide)

/-- A count just below a megabyte is shown as 1024 kilobytes. -/
theorem full_unit_printed : (Size.ofBytes 1048575).text = "1024.0 KB" ∧
    ∃ x, Measure.ofText? (Size.ofBytes 1048575).text = some x ∧ x.unit = .kilobyte ∧
      x.number = 1024 := by
  have hsize : Size.ofBytes 1048575 = ⟨10240, .kilobyte⟩ := by decide
  refine ⟨by decide, _, Size.ofText?_text 1048575, ?_, ?_⟩
  · rw [hsize]
    rfl
  · rw [hsize, Size.measure]
    norm_num

end ReleaseTrain
