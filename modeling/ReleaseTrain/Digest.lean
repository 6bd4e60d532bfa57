import ReleaseTrain.Text.Utf8

/-!
The SHA-256 digest of FIPS 180-4, taken in piece by piece. Bytes that do not fill a block wait for
the next piece; the end is padded.
-/

namespace ReleaseTrain.Digest

open Text (Bytes)

abbrev Word := UInt32

/-- The first 32 bits of the fractional parts of the cube roots of the first 64 primes. -/
def roundConstants : List Word :=
  [0x428a2f98, 0x71374491, 0xb5c0fbcf, 0xe9b5dba5, 0x3956c25b, 0x59f111f1, 0x923f82a4, 0xab1c5ed5,
    0xd807aa98, 0x12835b01, 0x243185be, 0x550c7dc3, 0x72be5d74, 0x80deb1fe, 0x9bdc06a7, 0xc19bf174,
    0xe49b69c1, 0xefbe4786, 0x0fc19dc6, 0x240ca1cc, 0x2de92c6f, 0x4a7484aa, 0x5cb0a9dc, 0x76f988da,
    0x983e5152, 0xa831c66d, 0xb00327c8, 0xbf597fc7, 0xc6e00bf3, 0xd5a79147, 0x06ca6351, 0x14292967,
    0x27b70a85, 0x2e1b2138, 0x4d2c6dfc, 0x53380d13, 0x650a7354, 0x766a0abb, 0x81c2c92e, 0x92722c85,
    0xa2bfe8a1, 0xa81a664b, 0xc24b8b70, 0xc76c51a3, 0xd192e819, 0xd6990624, 0xf40e3585, 0x106aa070,
    0x19a4c116, 0x1e376c08, 0x2748774c, 0x34b0bcb5, 0x391c0cb3, 0x4ed8aa4a, 0x5b9cca4f, 0x682e6ff3,
    0x748f82ee, 0x78a5636f, 0x84c87814, 0x8cc70208, 0x90befffa, 0xa4506ceb, 0xbef9a3f7, 0xc67178f2]

structure Chaining where
  a : Word
  b : Word
  c : Word
  d : Word
  e : Word
  f : Word
  g : Word
  h : Word
  deriving DecidableEq, Repr

/-- The first 32 bits of the fractional parts of the square roots of the first 8 primes. -/
def Chaining.start : Chaining :=
  ⟨0x6a09e667, 0xbb67ae85, 0x3c6ef372, 0xa54ff53a, 0x510e527f, 0x9b05688c, 0x1f83d9ab, 0x5be0cd19⟩

def rotate (w n : Word) : Word := (w >>> n) ||| (w <<< (32 - n))

def choose (x y z : Word) : Word := (x &&& y) ^^^ (~~~x &&& z)

def majority (x y z : Word) : Word := (x &&& y) ^^^ (x &&& z) ^^^ (y &&& z)

def bigSigma0 (w : Word) : Word := rotate w 2 ^^^ rotate w 13 ^^^ rotate w 22

def bigSigma1 (w : Word) : Word := rotate w 6 ^^^ rotate w 11 ^^^ rotate w 25

def smallSigma0 (w : Word) : Word := rotate w 7 ^^^ rotate w 18 ^^^ (w >>> 3)

def smallSigma1 (w : Word) : Word := rotate w 17 ^^^ rotate w 19 ^^^ (w >>> 10)

def words : Bytes → List Word
  | p :: q :: r :: s :: rest =>
    ((p.toUInt32 <<< 24) ||| (q.toUInt32 <<< 16) ||| (r.toUInt32 <<< 8) ||| s.toUInt32) ::
      words rest
  | _ => []

/-- So many more words of the message schedule, the newest word first. -/
def expand : Nat → List Word → List Word
  | 0, ws => ws
  | n + 1, ws =>
    let next := smallSigma1 (ws.getD 1 0) + ws.getD 6 0 + smallSigma0 (ws.getD 14 0) + ws.getD 15 0
    expand n (next :: ws)

def schedule (block : Bytes) : List Word := (expand 48 (words block).reverse).reverse

def round (s : Chaining) (constant word : Word) : Chaining :=
  let t₁ := s.h + bigSigma1 s.e + choose s.e s.f s.g + constant + word
  let t₂ := bigSigma0 s.a + majority s.a s.b s.c
  ⟨t₁ + t₂, s.a, s.b, s.c, s.d + t₁, s.e, s.f, s.g⟩

def rounds : Chaining → List Word → List Word → Chaining
  | s, constant :: constants, word :: ws => rounds (round s constant word) constants ws
  | s, _, _ => s

def Chaining.add (s t : Chaining) : Chaining :=
  ⟨s.a + t.a, s.b + t.b, s.c + t.c, s.d + t.d, s.e + t.e, s.f + t.f, s.g + t.g, s.h + t.h⟩

def compress (s : Chaining) (block : Bytes) : Chaining :=
  s.add (rounds s roundConstants (schedule block))

def blockLength : Nat := 64

/-- Takes in every full block and leaves the rest. -/
def absorb (s : Chaining) (bytes : Bytes) : Chaining × Bytes :=
  if blockLength ≤ bytes.length then
    absorb (compress s (bytes.take blockLength)) (bytes.drop blockLength)
  else (s, bytes)
termination_by bytes.length
decreasing_by simp_wf; unfold blockLength at *; omega

/-- What has been taken in so far: full blocks, the bytes waiting for theirs, and their number in
all. -/
structure Hasher where
  chaining : Chaining := .start
  waiting : Bytes := []
  length : Nat := 0
  deriving Repr

def Hasher.update (h : Hasher) (piece : Bytes) : Hasher :=
  let (chaining, waiting) := absorb h.chaining (h.waiting ++ piece)
  ⟨chaining, waiting, h.length + piece.length⟩

/-- The number of bits as eight bytes, the highest first. -/
def lengthBytes (bytes : Nat) : Bytes :=
  [56, 48, 40, 32, 24, 16, 8, 0].map fun shift ↦ UInt8.ofNat ((8 * bytes) >>> shift)

/-- What follows a message: a one bit, zeros, and the length, up to the end of a block. -/
def padding (length : Nat) : Bytes :=
  0x80 :: List.replicate ((119 - length % 64) % 64) 0 ++ lengthBytes length

def Chaining.words (s : Chaining) : List Word := [s.a, s.b, s.c, s.d, s.e, s.f, s.g, s.h]

def hexDigit (n : Nat) : Char := "0123456789abcdef".toList.getD n '0'

def wordText (w : Word) : List Char :=
  [28, 24, 20, 16, 12, 8, 4, 0].map fun shift ↦ hexDigit ((w.toNat >>> shift) % 16)

def Chaining.text (s : Chaining) : String := .ofList (s.words.flatMap wordText)

def Hasher.finish (h : Hasher) : String :=
  (absorb h.chaining (h.waiting ++ padding h.length)).1.text

def pieces (size : Nat) (bytes : Bytes) : List Bytes :=
  if _h : bytes = [] ∨ size = 0 then []
  else bytes.take size :: pieces size (bytes.drop size)
termination_by bytes.length
decreasing_by
  have : 0 < bytes.length := List.length_pos_iff.2 fun e ↦ _h (.inl e)
  simp_wf
  omega

/-- The digest of a message that comes in pieces. -/
def ofPieces (ps : List Bytes) : String := (ps.foldl Hasher.update {}).finish

def ofFile (bytes : Bytes) : String := ofPieces (pieces 8192 bytes)

end ReleaseTrain.Digest
