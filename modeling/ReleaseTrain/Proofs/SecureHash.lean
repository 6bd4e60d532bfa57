import Mathlib.Data.Nat.Nth
import Mathlib.Data.Nat.NthRoot.Defs
import Mathlib.Data.Nat.Prime.Defs
import Mathlib.Tactic.Ring
import ReleaseTrain.Text.Utf8

namespace ReleaseTrain.SecureHash

abbrev Bits := List Bool

abbrev Word := BitVec 32

/-- So many low bits of a number, the highest of them first. -/
def binary (width n : Nat) : Bits := (List.range width).map fun i ↦ n.testBit (width - 1 - i)

/-- The number that bits write, the highest bit first. -/
def number (bits : Bits) : Nat := bits.foldl (fun n bit ↦ 2 * n + bit.toNat) 0

/-- So many low digits of a number to base 16, the highest of them first. -/
def hexadecimal (width n : Nat) : List Char :=
  (List.range width).map fun i ↦ Nat.digitChar (n / 16 ^ (width - 1 - i) % 16)

/-- The bits of a message that is given in bytes. -/
def bitsOf (bytes : Text.Bytes) : Bits := bytes.flatMap fun byte ↦ binary 8 byte.toNat

def choice (x y z : Word) : Word := (x &&& y) ^^^ (~~~x &&& z)

def majority (x y z : Word) : Word := (x &&& y) ^^^ (x &&& z) ^^^ (y &&& z)

def upperSigma0 (x : Word) : Word := x.rotateRight 2 ^^^ x.rotateRight 13 ^^^ x.rotateRight 22

def upperSigma1 (x : Word) : Word := x.rotateRight 6 ^^^ x.rotateRight 11 ^^^ x.rotateRight 25

def lowerSigma0 (x : Word) : Word := x.rotateRight 7 ^^^ x.rotateRight 18 ^^^ x >>> 3

def lowerSigma1 (x : Word) : Word := x.rotateRight 17 ^^^ x.rotateRight 19 ^^^ x >>> 10

/-- The first 32 bits of the fractional part of the `k`th root of `p`: to the root of
`p * 2 ^ (32 * k)` they come before the point. -/
def fraction (k p : Nat) : Word := .ofNat 32 (Nat.nthRoot k (p * 2 ^ (32 * k)))

noncomputable def prime (t : Nat) : Nat := Nat.nth Nat.Prime t

noncomputable def constant (t : Nat) : Word := fraction 3 (prime t)

structure Registers where
  a : Word
  b : Word
  c : Word
  d : Word
  e : Word
  f : Word
  g : Word
  h : Word

noncomputable def Registers.initial : Registers where
  a := fraction 2 (prime 0)
  b := fraction 2 (prime 1)
  c := fraction 2 (prime 2)
  d := fraction 2 (prime 3)
  e := fraction 2 (prime 4)
  f := fraction 2 (prime 5)
  g := fraction 2 (prime 6)
  h := fraction 2 (prime 7)

theorem exists_zeros (length : Nat) : ∃ k, (length + 1 + k) % 512 = 448 :=
  ⟨511 * (length + 1) + 448, by omega⟩

/-- The least number of zeros behind which 64 bits end a block. -/
def zeros (length : Nat) : Nat := Nat.find (exists_zeros length)

def padded (message : Bits) : Bits :=
  message ++ true :: List.replicate (zeros message.length) false ++ binary 64 message.length

def word (block : Bits) (t : Nat) : Word := .ofNat 32 (number ((block.drop (32 * t)).take 32))

def schedule (block : Bits) (t : Nat) : Word :=
  if t < 16 then word block t
  else lowerSigma1 (schedule block (t - 2)) + schedule block (t - 7) +
    lowerSigma0 (schedule block (t - 15)) + schedule block (t - 16)

def Registers.round (r : Registers) (k w : Word) : Registers :=
  let t₁ := r.h + upperSigma1 r.e + choice r.e r.f r.g + k + w
  let t₂ := upperSigma0 r.a + majority r.a r.b r.c
  { h := r.g, g := r.f, f := r.e, e := r.d + t₁, d := r.c, c := r.b, b := r.a, a := t₁ + t₂ }

def Registers.add (r s : Registers) : Registers :=
  ⟨r.a + s.a, r.b + s.b, r.c + s.c, r.d + s.d, r.e + s.e, r.f + s.f, r.g + s.g, r.h + s.h⟩

noncomputable def compress (r : Registers) (block : Bits) : Registers :=
  r.add ((List.range 64).foldl (fun s t ↦ s.round (constant t) (schedule block t)) r)

def block (message : Bits) (i : Nat) : Bits := (message.drop (512 * i)).take 512

noncomputable def hash (message : Bits) : Registers :=
  (List.range ((padded message).length / 512)).foldl
    (fun r i ↦ compress r (block (padded message) i)) .initial

def Registers.words (r : Registers) : List Word := [r.a, r.b, r.c, r.d, r.e, r.f, r.g, r.h]

noncomputable def digest (message : Bits) : Bits :=
  (hash message).words.flatMap fun w ↦ binary 32 w.toNat

/-- The digest of bytes in 64 hexadecimal digits. -/
noncomputable def text (bytes : Text.Bytes) : String :=
  .ofList (hexadecimal 64 (number (digest (bitsOf bytes))))

section

variable {m n v w : Nat} {xs ys : Bits}

@[simp] theorem length_binary : (binary w n).length = w := by simp [binary]

@[simp] theorem length_bitsOf (bytes : Text.Bytes) : (bitsOf bytes).length = 8 * bytes.length := by
  induction bytes with
  | nil => rfl
  | cons b bytes ih =>
    rw [bitsOf] at ih ⊢
    simp only [List.flatMap_cons, List.length_append, length_binary, List.length_cons]
    omega

@[simp] theorem bitsOf_nil : bitsOf [] = [] := rfl

@[simp] theorem bitsOf_cons (b : UInt8) (bytes : Text.Bytes) :
    bitsOf (b :: bytes) = binary 8 b.toNat ++ bitsOf bytes := rfl

@[simp] theorem bitsOf_append (xs ys : Text.Bytes) : bitsOf (xs ++ ys) = bitsOf xs ++ bitsOf ys :=
  List.flatMap_append

theorem bitsOf_drop (bytes : Text.Bytes) (n : Nat) :
    bitsOf (bytes.drop n) = (bitsOf bytes).drop (8 * n) := by
  by_cases h : n ≤ bytes.length
  · conv_rhs => rw [← List.take_append_drop n bytes, bitsOf_append]
    rw [List.drop_left' (by simp [h])]
  · rw [List.drop_of_length_le (by omega), List.drop_of_length_le (by simp; omega), bitsOf_nil]

theorem bitsOf_take (bytes : Text.Bytes) (n : Nat) :
    bitsOf (bytes.take n) = (bitsOf bytes).take (8 * n) := by
  by_cases h : n ≤ bytes.length
  · conv_rhs => rw [← List.take_append_drop n bytes, bitsOf_append]
    rw [List.take_left' (by simp [h])]
  · rw [List.take_of_length_le (by omega), List.take_of_length_le (by simp; omega)]

theorem binary_add : binary (v + w) n = binary v (n / 2 ^ w) ++ binary w n := by
  simp only [binary, List.range_add, List.map_append, List.map_map]
  refine congrArg₂ (· ++ ·) (List.map_congr_left fun i hi ↦ ?_) (List.map_congr_left fun i hi ↦ ?_)
  · have := List.mem_range.1 hi
    rw [Nat.testBit_div_two_pow]
    congr 1
    omega
  · have := List.mem_range.1 hi
    simp only [Function.comp_apply]
    congr 1
    omega

theorem binary_mod (h : w ≤ v) : binary w (n % 2 ^ v) = binary w n := by
  refine List.map_congr_left fun i hi ↦ ?_
  have := List.mem_range.1 hi
  simp only [Nat.testBit_mod_two_pow, Bool.and_eq_right_iff_imp]
  simp only [decide_eq_true_eq]
  omega

theorem number_append : number (xs ++ ys) = number xs * 2 ^ ys.length + number ys := by
  induction ys using List.reverseRecOn with
  | nil => simp [number]
  | append_singleton ys y ih =>
    simp only [number, ← List.append_assoc, List.foldl_append, List.foldl_cons, List.foldl_nil,
      List.length_append, List.length_singleton, pow_succ] at ih ⊢
    rw [ih]
    ring

theorem number_binary : number (binary w n) = n % 2 ^ w := by
  induction w generalizing n with
  | zero => simp [binary, number, Nat.mod_one]
  | succ w ih =>
    rw [Nat.add_comm w 1, binary_add, number_append, length_binary, ih, Nat.pow_add', Nat.mod_mul]
    have : number (binary 1 (n / 2 ^ w)) = n / 2 ^ w % 2 := by
      simp only [binary, number, List.range_one, List.map_cons, List.map_nil, List.foldl_cons,
        List.foldl_nil]
      rcases Nat.mod_two_eq_zero_or_one (n / 2 ^ w) with h | h <;> simp [h]
    rw [this, Nat.pow_one]
    ring

theorem number_lt (xs : Bits) : number xs < 2 ^ xs.length := by
  induction xs using List.reverseRecOn with
  | nil => simp [number]
  | append_singleton xs x ih =>
    rw [number_append, List.length_append, List.length_singleton, pow_succ]
    have : number [x] ≤ 1 := by cases x <;> decide
    omega

theorem hexadecimal_add :
    hexadecimal (v + w) n = hexadecimal v (n / 16 ^ w) ++ hexadecimal w (n % 16 ^ w) := by
  simp only [hexadecimal, List.range_add, List.map_append, List.map_map]
  refine congrArg₂ (· ++ ·) (List.map_congr_left fun i hi ↦ ?_) (List.map_congr_left fun i hi ↦ ?_)
  · have := List.mem_range.1 hi
    rw [Nat.div_div_eq_div_mul, ← pow_add]
    congr 4
    omega
  · have := List.mem_range.1 hi
    have hsplit : 16 ^ w = 16 ^ (w - 1 - i) * 16 ^ (i + 1) := by
      rw [← pow_add]
      congr 1
      omega
    rw [hsplit, Nat.mod_mul_right_div_self, Function.comp_apply,
      Nat.mod_mod_of_dvd _ (dvd_pow_self 16 (Nat.succ_ne_zero i))]
    congr 4
    omega

theorem hexadecimal_append (h : ys.length = 4 * w) :
    hexadecimal (v + w) (number (xs ++ ys)) =
      hexadecimal v (number xs) ++ hexadecimal w (number ys) := by
  have hpow : 2 ^ ys.length = 16 ^ w := by
    rw [h, pow_mul]
    rfl
  have hlt : number ys < 16 ^ w := hpow ▸ number_lt ys
  rw [hexadecimal_add, number_append, hpow, Nat.mul_add_mod_self_right, Nat.mod_eq_of_lt hlt,
    Nat.add_comm, Nat.add_mul_div_right _ _ (Nat.pow_pos (by decide)), Nat.div_eq_of_lt hlt,
    Nat.zero_add]

theorem hexadecimal_words (ws : List Word) :
    hexadecimal (8 * ws.length) (number (ws.flatMap fun w ↦ binary 32 w.toNat)) =
      ws.flatMap fun w ↦ hexadecimal 8 w.toNat := by
  induction ws with
  | nil => rfl
  | cons w ws ih =>
    have hlength : (ws.flatMap fun w ↦ binary 32 w.toNat).length = 4 * (8 * ws.length) := by
      simp [List.length_flatMap]
      omega
    rw [List.length_cons, Nat.mul_succ, Nat.add_comm, List.flatMap_cons, List.flatMap_cons,
      hexadecimal_append hlength, ih, number_binary, Nat.mod_eq_of_lt w.isLt]

end

end ReleaseTrain.SecureHash
