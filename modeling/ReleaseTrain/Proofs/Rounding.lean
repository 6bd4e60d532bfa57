import Mathlib.Algebra.Order.Group.Abs
import Mathlib.Algebra.Ring.Parity
import Mathlib.Data.Nat.Log
import Mathlib.Tactic.Ring
import ReleaseTrain.Summary.Size

namespace ReleaseTrain

/-- An integer nearest to `n / d`, of two equally near ones the even one. -/
structure Nearest (n d q : Nat) : Prop where
  below : 2 * (q * d) ≤ 2 * n + d
  above : 2 * n ≤ 2 * (q * d) + d
  even : 2 * (q * d) = 2 * n + d ∨ 2 * n = 2 * (q * d) + d → Even q

variable {c m n d p q u v : Nat}

theorem nearest_roundHalfEven (n : Nat) (hd : 0 < d) : Nearest n d (roundHalfEven n d) := by
  have hsplit : n / d * d + n % d = n := Nat.div_add_mod' n d
  have hlt : n % d < d := Nat.mod_lt n hd
  have hsucc : (n / d + 1) * d = n / d * d + d := Nat.succ_mul _ _
  unfold roundHalfEven
  dsimp only
  split
  next h => exact ⟨by omega, by omega, fun htie ↦ by omega⟩
  next h =>
  split
  next h' => exact ⟨by omega, by omega, fun htie ↦ by omega⟩
  next h' =>
  split
  next heven => exact ⟨by omega, by omega, fun _ ↦ Nat.even_iff.2 heven⟩
  next hodd => exact ⟨by omega, by omega, fun _ ↦ Nat.even_iff.2 (by omega)⟩

theorem Nearest.mono (hd : 0 < d) (hmn : m ≤ n) (hp : Nearest m d p) (hq : Nearest n d q) :
    p ≤ q := by
  by_contra hlt
  obtain ⟨k, rfl⟩ := Nat.exists_eq_add_of_lt (not_le.1 hlt)
  have hmul : (q + k + 1) * d = q * d + k * d + d := by ring
  have hbelow := hp.below
  have habove := hq.above
  rw [hmul] at hbelow
  -- Only a tie leaves room for a larger neighbour, and two neighbours are not both even.
  obtain rfl : k = 0 := by
    by_contra hk
    have hle : d ≤ k * d := Nat.le_mul_of_pos_left d (Nat.pos_of_ne_zero hk)
    omega
  have hpeven := hp.even (.inl (by rw [hmul]; omega))
  have hqeven := hq.even (.inr (by omega))
  rw [Nat.even_add_one] at hpeven
  exact hpeven hqeven

theorem Nearest.eq (hd : 0 < d) (hp : Nearest n d p) (hq : Nearest n d q) : p = q :=
  le_antisymm (hp.mono hd le_rfl hq) (hq.mono hd le_rfl hp)

theorem Nearest.abs_sub_le (h : Nearest n d q) (k : Nat) :
    |(n : ℤ) - (q * d : Nat)| ≤ |(n : ℤ) - (k * d : Nat)| := by
  have hbelow := h.below
  have habove := h.above
  have hself := le_abs_self ((n : ℤ) - (k * d : Nat))
  have hneg := neg_abs_le ((n : ℤ) - (k * d : Nat))
  rw [abs_le]
  rcases lt_trichotomy k q with hlt | rfl | hlt
  · have hstep : k * d + d ≤ q * d := Nat.succ_mul k d ▸ Nat.mul_le_mul_right d hlt
    omega
  · omega
  · have hstep : q * d + d ≤ k * d := Nat.succ_mul q d ▸ Nat.mul_le_mul_right d hlt
    omega

theorem roundHalfEven_mono (hd : 0 < d) (hmn : m ≤ n) : roundHalfEven m d ≤ roundHalfEven n d :=
  (nearest_roundHalfEven m hd).mono hd hmn (nearest_roundHalfEven n hd)

theorem roundHalfEven_mul_of_dvd (hd : 0 < d) (h : d ∣ n) : roundHalfEven n d * d = n := by
  obtain ⟨q, rfl⟩ := h
  have hq : Nearest (d * q) d q := by
    rw [Nat.mul_comm d q]
    exact ⟨by omega, by omega, fun htie ↦ by omega⟩
  rw [(nearest_roundHalfEven _ hd).eq hd hq, Nat.mul_comm]

theorem roundHalfEven_mul_mono (hu : 0 < u) (hv : 0 < v) (hmn : m ≤ n)
    (h : u = v ∨ ∃ b, m ≤ b ∧ b ≤ n ∧ u ∣ c * b ∧ v ∣ c * b) :
    roundHalfEven (c * m) u * u ≤ roundHalfEven (c * n) v * v := by
  obtain rfl | ⟨b, hmb, hbn, hub, hvb⟩ := h
  · exact Nat.mul_le_mul_right u (roundHalfEven_mono hu (Nat.mul_le_mul_left c hmn))
  · calc roundHalfEven (c * m) u * u
        ≤ roundHalfEven (c * b) u * u :=
          Nat.mul_le_mul_right u (roundHalfEven_mono hu (Nat.mul_le_mul_left c hmb))
      _ = c * b := roundHalfEven_mul_of_dvd hu hub
      _ = roundHalfEven (c * b) v * v := (roundHalfEven_mul_of_dvd hv hvb).symm
      _ ≤ roundHalfEven (c * n) v * v :=
          Nat.mul_le_mul_right v (roundHalfEven_mono hv (Nat.mul_le_mul_left c hbn))

section Doubles

/-- How far apart the doubles around `n` are. -/
def spacing (n : Nat) : Nat := 2 ^ (Nat.log2 n - 52)

theorem spacing_pos (n : Nat) : 0 < spacing n := Nat.two_pow_pos _

theorem nearestDouble_eq (n : Nat) : nearestDouble n = roundHalfEven n (spacing n) * spacing n := by
  unfold nearestDouble
  split
  next hn =>
    have hlog : Nat.log2 n < 53 := by
      by_cases h0 : n = 0
      · simp [h0]
      · exact (Nat.log2_lt h0).2 hn
    have hone : spacing n = 1 := by
      rw [spacing, Nat.sub_eq_zero_of_le (Nat.le_of_lt_succ hlog), pow_zero]
    rw [hone]
    exact (roundHalfEven_mul_of_dvd Nat.one_pos (one_dvd n)).symm
  next => rfl

theorem nearestDouble_of_le (h : n ≤ 2 ^ 53) : nearestDouble n = n := by
  obtain hlt | rfl := h.lt_or_eq
  · exact if_pos hlt
  · decide +kernel

theorem nearestDouble_mono (hmn : m ≤ n) : nearestDouble m ≤ nearestDouble n := by
  have hbetween : spacing m = spacing n ∨
      ∃ b, m ≤ b ∧ b ≤ n ∧ spacing m ∣ 1 * b ∧ spacing n ∣ 1 * b := by
    have hlog : Nat.log2 m ≤ Nat.log2 n := by
      rw [Nat.log2_eq_log_two, Nat.log2_eq_log_two]
      exact Nat.log_mono_right hmn
    obtain heq | hlt := hlog.eq_or_lt
    · exact .inl (by rw [spacing, spacing, heq])
    -- Between two powers of two the doubles are equally far apart, and the powers are doubles.
    · have hn : n ≠ 0 := by
        rintro rfl
        simp at hlt
      refine .inr ⟨2 ^ Nat.log2 n, ?_, Nat.log2_self_le hn, ?_, ?_⟩
      · calc m ≤ 2 ^ (Nat.log2 m + 1) := Nat.lt_log2_self.le
          _ ≤ 2 ^ Nat.log2 n := Nat.pow_le_pow_right Nat.two_pos hlt
      · rw [Nat.one_mul]
        exact Nat.pow_dvd_pow 2 (by omega)
      · rw [Nat.one_mul]
        exact Nat.pow_dvd_pow 2 (by omega)
  have h := roundHalfEven_mul_mono (spacing_pos m) (spacing_pos n) hmn hbetween
  rwa [Nat.one_mul, Nat.one_mul, ← nearestDouble_eq, ← nearestDouble_eq] at h

/-- An integer that is a double: one with at most 53 significant bits. -/
def IsDouble (n : Nat) : Prop := ∃ k e, k < 2 ^ 53 ∧ n = k * 2 ^ e

theorem isDouble_nearestDouble (n : Nat) : IsDouble (nearestDouble n) := by
  by_cases hn : n ≤ 2 ^ 53
  · rw [nearestDouble_of_le hn]
    obtain hlt | rfl := hn.lt_or_eq
    · exact ⟨n, 0, hlt, by rw [pow_zero, Nat.mul_one]⟩
    · exact ⟨1, 53, by decide, rfl⟩
  have hn0 : n ≠ 0 := by omega
  have hlog : 52 ≤ Nat.log2 n := (Nat.le_log2 hn0).2 (by omega)
  have hdvd : spacing n ∣ 2 ^ (Nat.log2 n + 1) := Nat.pow_dvd_pow 2 (by omega)
  have hmul : 2 ^ 53 * spacing n = 2 ^ (Nat.log2 n + 1) := by
    rw [spacing, ← pow_add]
    congr 1
    omega
  have hle : roundHalfEven n (spacing n) ≤ 2 ^ 53 := by
    refine Nat.le_of_mul_le_mul_right ?_ (spacing_pos n)
    calc roundHalfEven n (spacing n) * spacing n
        ≤ roundHalfEven (2 ^ (Nat.log2 n + 1)) (spacing n) * spacing n :=
          Nat.mul_le_mul_right _ (roundHalfEven_mono (spacing_pos n) Nat.lt_log2_self.le)
      _ = 2 ^ 53 * spacing n := by rw [roundHalfEven_mul_of_dvd (spacing_pos n) hdvd, hmul]
  rw [nearestDouble_eq]
  obtain hlt | heq := hle.lt_or_eq
  · exact ⟨_, _, hlt, rfl⟩
  · exact ⟨1, Nat.log2 n + 1, by decide, by rw [heq, hmul, Nat.one_mul]⟩

/-- Above a power of two the doubles lie on the grid that begins there. -/
theorem IsDouble.spacing_dvd (hm : IsDouble m) (hle : 2 ^ Nat.log2 n ≤ m) : spacing n ∣ m := by
  obtain ⟨k, e, hk, rfl⟩ := hm
  have hlt : 2 ^ Nat.log2 n < 2 ^ (53 + e) :=
    calc 2 ^ Nat.log2 n ≤ k * 2 ^ e := hle
      _ < 2 ^ 53 * 2 ^ e := Nat.mul_lt_mul_of_pos_right hk (Nat.two_pow_pos e)
      _ = 2 ^ (53 + e) := (pow_add 2 53 e).symm
  have he : Nat.log2 n < 53 + e := (Nat.pow_lt_pow_iff_right Nat.one_lt_two).1 hlt
  exact (Nat.pow_dvd_pow 2 (by omega)).trans (Nat.dvd_mul_left _ k)

theorem nearestDouble_nearest (hm : IsDouble m) :
    |(n : ℤ) - nearestDouble n| ≤ |(n : ℤ) - m| := by
  by_cases hn : n ≤ 2 ^ 53
  · rw [nearestDouble_of_le hn, sub_self, abs_zero]
    exact abs_nonneg _
  have hn0 : n ≠ 0 := by omega
  have hnear := nearest_roundHalfEven n (spacing_pos n)
  rw [nearestDouble_eq]
  by_cases hle : 2 ^ Nat.log2 n ≤ m
  · obtain ⟨k, rfl⟩ := hm.spacing_dvd hle
    rw [Nat.mul_comm (spacing n) k]
    exact hnear.abs_sub_le k
  · obtain ⟨k, hk⟩ : spacing n ∣ 2 ^ Nat.log2 n := Nat.pow_dvd_pow 2 (by omega)
    have hpower : 2 ^ Nat.log2 n ≤ n := Nat.log2_self_le hn0
    have hgrid := hnear.abs_sub_le k
    rw [Nat.mul_comm k, ← hk, abs_of_nonneg (by omega : (0 : ℤ) ≤ n - (2 ^ Nat.log2 n : Nat))]
      at hgrid
    have hself := le_abs_self ((n : ℤ) - m)
    omega

end Doubles

end ReleaseTrain
