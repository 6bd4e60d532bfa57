import ReleaseTrain.Digest
import ReleaseTrain.Proofs.SecureHash

namespace ReleaseTrain

open Text (Bytes)

namespace SecureHash

variable {xs ys : Bits}

theorem word_zero (h : xs.length = 32) : word (xs ++ ys) 0 = .ofNat 32 (number xs) := by
  rw [word, Nat.mul_zero, List.drop_zero, List.take_left' h]

theorem word_succ (h : xs.length = 32) (t : Nat) : word (xs ++ ys) (t + 1) = word ys t := by
  have hdrop : (xs ++ ys).drop (32 * (t + 1)) = ys.drop (32 * t) := by
    rw [Nat.mul_succ, Nat.add_comm, ← List.drop_drop, List.drop_left' h]
  rw [word, hdrop, word]

theorem Registers.eq_of_words {r s : Registers} (h : r.words = s.words) : r = s := by
  cases r
  cases s
  simpa [words] using h

end SecureHash

namespace Digest

open SecureHash (Registers bitsOf number)

theorem prime_iff_of_lt {n : Nat} (h : n < 18 * 18) :
    n.Prime ↔ 2 ≤ n ∧ ∀ m < 18, 2 ≤ m → m * m ≤ n → ¬ m ∣ n := by
  rw [Nat.prime_def_le_sqrt]
  refine and_congr_right fun _ ↦ ⟨fun hn m _ hm hle ↦ hn m hm (Nat.le_sqrt.2 hle),
    fun hn m hm hle ↦ ?_⟩
  have hle := Nat.le_sqrt.1 hle
  exact hn m (Nat.mul_self_lt_mul_self_iff.1 (hle.trans_lt h)) hm hle

theorem filter_prime : (List.range 312).filter Nat.Prime =
    (List.range 312).filter fun n ↦ 2 ≤ n ∧ ∀ m < 18, 2 ≤ m → m * m ≤ n → ¬ m ∣ n := by
  refine List.filter_congr fun n hn ↦ decide_eq_decide.2 (prime_iff_of_lt ?_)
  have := List.mem_range.1 hn
  omega

theorem filter_range_eq_map_nth {p : Nat → Prop} [DecidablePred p] (n : Nat) :
    (List.range n).filter p = (List.range (Nat.count p n)).map (Nat.nth p) := by
  induction n with
  | zero => simp
  | succ n ih =>
    rw [List.range_succ, List.filter_append, ih, Nat.count_succ]
    by_cases h : p n
    · simp [h, List.range_succ, Nat.nth_count]
    · simp [h]

theorem map_prime : (List.range 64).map SecureHash.prime = (List.range 312).filter Nat.Prime := by
  have hcount : Nat.count Nat.Prime 312 = 64 := by
    rw [Nat.count, List.countP_eq_length_filter, filter_prime]
    decide +kernel
  rw [filter_range_eq_map_nth, hcount]
  rfl

theorem roundConstants_eq :
    roundConstants.map UInt32.toBitVec = (List.range 64).map SecureHash.constant := by
  calc
    roundConstants.map UInt32.toBitVec
    _ = ((List.range 312).filter Nat.Prime).map (SecureHash.fraction 3) := by
      rw [filter_prime]
      decide +kernel
    _ = (List.range 64).map SecureHash.constant := by
      rw [← map_prime, List.map_map]
      rfl

theorem shiftLeft_or (a : Nat) {b i : Nat} (h : b < 2 ^ i) : a <<< i ||| b = a * 2 ^ i + b := by
  rw [← Nat.shiftLeft_add_eq_or_of_lt h, Nat.shiftLeft_eq]

/-- Shifts of bytes to places of their own neither lose bits nor meet. -/
theorem or_bytes {p q r s : Nat} (hp : p < 2 ^ 8) (hq : q < 2 ^ 8) (hr : r < 2 ^ 8)
    (hs : s < 2 ^ 8) :
    p <<< 24 % 2 ^ 32 ||| q <<< 16 % 2 ^ 32 ||| r <<< 8 % 2 ^ 32 ||| s =
      p * 2 ^ 24 + (q * 2 ^ 16 + (r * 2 ^ 8 + s)) := by
  have hmod {n i : Nat} (h : n * 2 ^ i < 2 ^ 32) : n <<< i % 2 ^ 32 = n <<< i := by
    rw [Nat.shiftLeft_eq, Nat.mod_eq_of_lt h]
  rw [hmod (by omega), hmod (by omega), hmod (by omega), Nat.or_assoc, Nat.or_assoc,
    shiftLeft_or r hs, shiftLeft_or q (by omega), shiftLeft_or p (by omega)]

theorem four_bytes (p q r s : UInt8) :
    ((p.toUInt32 <<< 24) ||| (q.toUInt32 <<< 16) ||| (r.toUInt32 <<< 8) ||| s.toUInt32).toBitVec =
      .ofNat 32 (number (bitsOf [p, q, r, s])) := by
  have hp := p.toNat_lt
  have hq := q.toNat_lt
  have hr := r.toNat_lt
  have hs := s.toNat_lt
  have hnumber : number (bitsOf [p, q, r, s]) =
      ((p.toNat * 2 ^ 8 + q.toNat) * 2 ^ 8 + r.toNat) * 2 ^ 8 + s.toNat := by
    simp only [SecureHash.bitsOf_cons, SecureHash.bitsOf_nil, SecureHash.number_append,
      SecureHash.number_binary, List.length_append, SecureHash.length_binary]
    simp [number]
    omega
  apply BitVec.eq_of_toNat_eq
  calc
    _ = p.toNat <<< 24 % 2 ^ 32 ||| q.toNat <<< 16 % 2 ^ 32 ||| r.toNat <<< 8 % 2 ^ 32 |||
        s.toNat := by simp
    _ = p.toNat * 2 ^ 24 + (q.toNat * 2 ^ 16 + (r.toNat * 2 ^ 8 + s.toNat)) :=
      or_bytes hp hq hr hs
    _ = number (bitsOf [p, q, r, s]) := by omega
    _ = _ := by
      rw [BitVec.toNat_ofNat, Nat.mod_eq_of_lt (by omega)]

theorem map_words (bytes : Bytes) : (words bytes).map UInt32.toBitVec =
    (List.range (bytes.length / 4)).map (SecureHash.word (bitsOf bytes)) := by
  fun_induction words bytes with
  | case1 p q r s rest ih =>
    have hbits : bitsOf (p :: q :: r :: s :: rest) = bitsOf [p, q, r, s] ++ bitsOf rest :=
      SecureHash.bitsOf_append [p, q, r, s] rest
    have hlength : (p :: q :: r :: s :: rest).length / 4 = rest.length / 4 + 1 := by
      simp only [List.length_cons]
      omega
    rw [hbits, hlength, List.range_succ_eq_map, List.map_cons, List.map_cons, List.map_map, ih,
      SecureHash.word_zero (by simp), four_bytes]
    exact congrArg (_ :: ·) (List.map_congr_left fun t _ ↦ (SecureHash.word_succ (by simp) t).symm)
  | case2 bytes h =>
    have hlength : bytes.length / 4 = 0 := by
      match bytes, h with
      | [], _ | [_], _ | [_, _], _ | [_, _, _], _ => simp
      | p :: q :: r :: s :: rest, h => exact absurd rfl (h p q r s rest)
    rw [hlength]
    rfl

section

variable (w x y z : Word)

@[simp] theorem toBitVec_bigSigma0 :
    (bigSigma0 w).toBitVec = SecureHash.upperSigma0 w.toBitVec := by
  simp [bigSigma0, SecureHash.upperSigma0, BitVec.rotateRight_def, rotate]

@[simp] theorem toBitVec_bigSigma1 :
    (bigSigma1 w).toBitVec = SecureHash.upperSigma1 w.toBitVec := by
  simp [bigSigma1, SecureHash.upperSigma1, BitVec.rotateRight_def, rotate]

@[simp] theorem toBitVec_smallSigma0 :
    (smallSigma0 w).toBitVec = SecureHash.lowerSigma0 w.toBitVec := by
  simp [smallSigma0, SecureHash.lowerSigma0, BitVec.rotateRight_def, rotate]

@[simp] theorem toBitVec_smallSigma1 :
    (smallSigma1 w).toBitVec = SecureHash.lowerSigma1 w.toBitVec := by
  simp [smallSigma1, SecureHash.lowerSigma1, BitVec.rotateRight_def, rotate]

@[simp] theorem toBitVec_choose :
    (choose x y z).toBitVec = SecureHash.choice x.toBitVec y.toBitVec z.toBitVec := by
  simp [choose, SecureHash.choice]

@[simp] theorem toBitVec_majority :
    (majority x y z).toBitVec = SecureHash.majority x.toBitVec y.toBitVec z.toBitVec := by
  simp [majority, SecureHash.majority]

end

variable {ws ks : List Word} {K S : Nat → SecureHash.Word} {t : Nat}

/-- With the newest word in front, the word at a place is found by counting back. -/
theorem toBitVec_getD_newest (h : ws.map UInt32.toBitVec = ((List.range t).map S).reverse) {i : Nat}
    (hi : i < t) : (ws.getD i 0).toBitVec = S (t - 1 - i) := by
  have hlength : ws.length = t := by simpa using congrArg List.length h
  have hget : (ws.map UInt32.toBitVec)[i]? = ((List.range t).map S).reverse[i]? := by rw [h]
  rw [List.getElem?_map, List.getElem?_eq_getElem (by omega), List.getElem?_reverse (by simpa),
    List.getElem?_eq_getElem (by simp; omega)] at hget
  rw [List.getD_eq_getElem _ _ (by omega)]
  simpa using hget

theorem map_expand {block : SecureHash.Bits} (n : Nat) (ht : 16 ≤ t)
    (h : ws.map UInt32.toBitVec = ((List.range t).map (SecureHash.schedule block)).reverse) :
    (expand n ws).map UInt32.toBitVec =
      ((List.range (t + n)).map (SecureHash.schedule block)).reverse := by
  induction n generalizing ws t with
  | zero => exact h
  | succ n ih =>
    rw [expand, Nat.add_comm n, ← Nat.add_assoc]
    refine ih (by omega) ?_
    rw [List.map_cons, h, List.range_succ, List.map_append, List.reverse_append]
    refine congrArg (· :: _) ?_
    -- Places 1, 6, 14 and 15 behind the newest are 2, 7, 15 and 16 words back from the next one.
    simp only [UInt32.toBitVec_add, toBitVec_smallSigma0, toBitVec_smallSigma1]
    rw [toBitVec_getD_newest h (by omega), toBitVec_getD_newest h (by omega),
      toBitVec_getD_newest h (by omega), toBitVec_getD_newest h (by omega)]
    conv_rhs => rw [SecureHash.schedule, if_neg (by omega)]
    congr 1

theorem map_schedule {block : Bytes} (h : block.length = blockLength) :
    (schedule block).map UInt32.toBitVec =
      (List.range 64).map (SecureHash.schedule (bitsOf block)) := by
  have hwords : (words block).map UInt32.toBitVec =
      (List.range 16).map (SecureHash.schedule (bitsOf block)) := by
    rw [map_words, h]
    refine List.map_congr_left fun t ht ↦ ?_
    have ht : t < 16 := List.mem_range.1 ht
    rw [SecureHash.schedule, if_pos ht]
  rw [schedule, List.map_reverse, map_expand 48 (Nat.le_refl 16), List.reverse_reverse]
  rw [List.map_reverse, hwords]

def Chaining.registers (s : Chaining) : Registers :=
  ⟨s.a.toBitVec, s.b.toBitVec, s.c.toBitVec, s.d.toBitVec, s.e.toBitVec, s.f.toBitVec,
    s.g.toBitVec, s.h.toBitVec⟩

theorem start_registers : Chaining.start.registers = .initial := by
  have h : Chaining.start.words.map UInt32.toBitVec =
      (((List.range 64).map SecureHash.prime).take 8).map (SecureHash.fraction 2) := by
    rw [map_prime, filter_prime]
    decide +kernel
  exact SecureHash.Registers.eq_of_words h

theorem registers_round (s : Chaining) (k w : Word) :
    (round s k w).registers = s.registers.round k.toBitVec w.toBitVec := by
  simp [round, Chaining.registers, SecureHash.Registers.round]

theorem registers_add (s t : Chaining) : (s.add t).registers = s.registers.add t.registers := by
  simp [Chaining.add, Chaining.registers, SecureHash.Registers.add]

theorem registers_rounds (s : Chaining) {ts : List Nat} (hks : ks.map UInt32.toBitVec = ts.map K)
    (hws : ws.map UInt32.toBitVec = ts.map S) :
    (rounds s ks ws).registers = ts.foldl (fun r t ↦ r.round (K t) (S t)) s.registers := by
  induction ts generalizing s ks ws with
  | nil =>
    rw [List.map_eq_nil_iff.1 hks, rounds.eq_def]
    rfl
  | cons t ts ih =>
    obtain ⟨k, ks, rfl, hk, hks⟩ := List.map_eq_cons_iff.1 hks
    obtain ⟨w, ws, rfl, hw, hws⟩ := List.map_eq_cons_iff.1 hws
    rw [rounds, ih _ hks hws, registers_round, hk, hw, List.foldl_cons]

theorem registers_compress (s : Chaining) {block : Bytes} (h : block.length = blockLength) :
    (compress s block).registers = SecureHash.compress s.registers (bitsOf block) := by
  rw [compress, registers_add, registers_rounds s roundConstants_eq (map_schedule h)]
  rfl

end Digest

end ReleaseTrain
