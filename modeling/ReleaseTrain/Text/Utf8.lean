/-!
UTF-8: reading bytes as text, refusing what is not well formed or marking it with U+FFFD.
-/

namespace ReleaseTrain.Text

abbrev Bytes := List UInt8

def encode (s : String) : Bytes := s.toUTF8.data.toList

/-- The first character of some bytes, or the number of bytes of an ill-formed beginning: the
longest beginning of a character, and at least one byte. -/
inductive Decoded
  | char (c : Char) (length : Nat)
  | illFormed (length : Nat)

def isContinuation (b : UInt8) : Bool := 0x80 ≤ b && b ≤ 0xBF

/-- The bytes that may follow a first byte of a three or four byte character. -/
def secondInRange (first second : UInt8) : Bool :=
  if first = 0xE0 then 0xA0 ≤ second && second ≤ 0xBF
  else if first = 0xED then 0x80 ≤ second && second ≤ 0x9F
  else if first = 0xF0 then 0x90 ≤ second && second ≤ 0xBF
  else if first = 0xF4 then 0x80 ≤ second && second ≤ 0x8F
  else isContinuation second

def low6 (b : UInt8) : Nat := b.toNat % 64

def decodeFirst (b : UInt8) (rest : Bytes) : Decoded :=
  if b < 0x80 then .char (Char.ofNat b.toNat) 1
  else if 0xC2 ≤ b && b ≤ 0xDF then
    match rest with
    | c :: _ =>
      if isContinuation c then .char (Char.ofNat ((b.toNat % 32) * 64 + low6 c)) 2 else .illFormed 1
    | [] => .illFormed 1
  else if 0xE0 ≤ b && b ≤ 0xEF then
    match rest with
    | c :: rest =>
      if secondInRange b c then
        match rest with
        | d :: _ =>
          if isContinuation d then
            .char (Char.ofNat ((b.toNat % 16) * 4096 + low6 c * 64 + low6 d)) 3
          else .illFormed 2
        | [] => .illFormed 2
      else .illFormed 1
    | [] => .illFormed 1
  else if 0xF0 ≤ b && b ≤ 0xF4 then
    match rest with
    | c :: rest =>
      if secondInRange b c then
        match rest with
        | d :: rest =>
          if isContinuation d then
            match rest with
            | e :: _ =>
              if isContinuation e then
                .char (Char.ofNat ((b.toNat % 8) * 262144 + low6 c * 4096 + low6 d * 64 + low6 e)) 4
              else .illFormed 3
            | [] => .illFormed 3
          else .illFormed 2
        | [] => .illFormed 2
      else .illFormed 1
    | [] => .illFormed 1
  else .illFormed 1

def lossyChars : Bytes → List Char
  | [] => []
  | b :: rest =>
    match decodeFirst b rest with
    | .char c n => c :: lossyChars (rest.drop (n - 1))
    | .illFormed n => '\ufffd' :: lossyChars (rest.drop (n - 1))
termination_by bytes => bytes.length
decreasing_by all_goals simp only [List.length_drop, List.length_cons]; omega

def lossy (bytes : Bytes) : String := String.ofList (lossyChars bytes)

def decode? (bytes : Bytes) : Option String := String.fromUTF8? ⟨bytes.toArray⟩

end ReleaseTrain.Text
