/-!
Byte counts for people: a number with one decimal in the largest unit that leaves at least one,
as binary floating point computes it. All arithmetic is exact; the two roundings are explicit.
-/

namespace ReleaseTrain

/-- The integer nearest to `n / d`, of two equally near ones the even one. -/
def roundHalfEven (n d : Nat) : Nat :=
  let q := n / d
  let twice := 2 * (n % d)
  if twice < d then q
  else if d < twice then q + 1
  else if q % 2 = 0 then q else q + 1

/-- The nearest integer with at most 53 significant bits, a tie going to the even one. -/
def nearestDouble (n : Nat) : Nat :=
  if n < Nat.pow 2 53 then n
  else
    let unit := Nat.pow 2 (Nat.log2 n - 52)
    roundHalfEven n unit * unit

inductive SizeUnit
  | byte
  | kilobyte
  | megabyte
  | gigabyte
  deriving DecidableEq, Repr

namespace SizeUnit

def bytes : SizeUnit → Nat
  | byte => 1
  | kilobyte => 1024
  | megabyte => 1024 * 1024
  | gigabyte => 1024 * 1024 * 1024

def text : SizeUnit → String
  | byte => "B"
  | kilobyte => "KB"
  | megabyte => "MB"
  | gigabyte => "GB"

def ofBytes (n : Nat) : SizeUnit :=
  if n < 1024 then byte
  else if n < 1024 * 1024 then kilobyte
  else if n < 1024 * 1024 * 1024 then megabyte
  else gigabyte

end SizeUnit

/-- A size as it is printed: tenths of a unit. -/
structure Size where
  tenths : Nat
  unit : SizeUnit
  deriving DecidableEq, Repr

namespace Size

def ofBytes (n : Nat) : Size :=
  let unit := SizeUnit.ofBytes (nearestDouble n)
  ⟨roundHalfEven (10 * nearestDouble n) unit.bytes, unit⟩

/-- Bytes are printed whole. -/
def text (s : Size) : String :=
  match s.unit with
  | .byte => s!"{s.tenths / 10} {s.unit.text}"
  | _ => s!"{s.tenths / 10}.{s.tenths % 10} {s.unit.text}"

end Size

example : (Size.ofBytes 1536).text = "1.5 KB" := by decide
example : (Size.ofBytes 1048575).text = "1024.0 KB" := by decide

end ReleaseTrain
